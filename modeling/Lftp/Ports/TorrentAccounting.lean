import Lftp.Verified.Runs
import Lftp.Ports.Bencode
import Lftp.Ports.TorrentPieces

/-!
# Piece accounting over the life of a torrent

The phases of `Torrent` that change the piece table: `SetMetadata`, `Startup`,
the validation and build branches of `Do`, and the end of `StoreBlock`. What the
disk and the network answer is part of the event. `Shutdown` unsets the peers
and `Do` returns at once from then on, so only a new `Torrent` follows it.

* `setMetadata` keeps the order in which the source assigns its members, so that
  a rejected dictionary leaves what it had assigned.
* `Event.Ok` is the condition under which an event keeps the counters exact.
* `accounting_exact` is the result over all runs.
-/

namespace Lftp.Ports.TorrentAccounting

open Lftp.Verified
open Lftp.Verified.Assoc
open Lftp.Ports.Bencode
open Lftp.Ports.TorrentPieces

/-- `TorrentBuild` when its scan is done. -/
structure Build where
  info : List (Bytes × BeNode)
  pieces : Bytes
  totalLength : Nat
  pieceLength : Nat
  pieceLength_pos : 0 < pieceLength
  totalLength_lt : totalLength < 2 ^ 63

namespace Build

/-- `TorrentBuild::SetPiece`. -/
def setPiece (b : Build) (sha : Bytes) : Build := { b with pieces := b.pieces ++ sha }

/-- `TorrentBuild::GetMetadata`. -/
def getMetadata (b : Build) : Bytes :=
  pack (.dict [] (add (bytes "pieces") (.str b.pieces) b.info))

end Build

/-- The members of `Torrent` that the accounting phases read. `files` says that
there is a file table, `hashes` is `*pieces`. -/
structure Torrent where
  shuttingDown : Bool
  validating : Bool
  forceValid : Bool
  buildMd : Bool
  stopIfComplete : Bool
  files : Bool
  validateIndex : Nat
  invalidCause : Option Bytes
  building : Option Build
  info : Option BeNode
  metadata : Option Bytes
  infoHash : Option Bytes
  hashes : Bytes
  table : Pieces

/-! ## Reading the info dictionary -/

/-- `dict.lookup(name)`; only a dictionary has entries. -/
def lookup (n : BeNode) (name : Bytes) : Option BeNode :=
  match n with
  | .dict _ d => d.lookup name
  | _ => none

/-- `Torrent::Lookup`; an error is the message it sets. -/
def lookupAs {α : Type} (type : Bytes) (get : BeNode → Option α) (n : BeNode) (name : Bytes) :
    Except Bytes α :=
  match lookup n name with
  | none => .error (bytes "Meta-data: `" ++ name ++ bytes "' key missing")
  | some v =>
    match get v with
    | none =>
      .error (bytes "Meta-data: wrong `" ++ name ++ bytes "' type, must be " ++ type)
    | some a => .ok a

def lookupInt : BeNode → Bytes → Except Bytes Int :=
  lookupAs (bytes "INT") fun
    | .int num => some num.toInt
    | _ => none

def lookupStr : BeNode → Bytes → Except Bytes Bytes :=
  lookupAs (bytes "STR") fun
    | .str s => some s
    | _ => none

def lookupList : BeNode → Bytes → Except Bytes (List BeNode) :=
  lookupAs (bytes "LIST") fun
    | .list l => some l
    | _ => none

/-- The node and its `str`. -/
def lookupDict : BeNode → Bytes → Except Bytes (BeNode × Bytes) :=
  lookupAs (bytes "DICT") fun
    | .dict raw d => some (.dict raw d, raw)
    | _ => none

/-- The loop over `info/files`. `sum` is `total_length`; an error comes with what
has been summed up to it. -/
def sumFiles : Nat → Nat → List BeNode → Except (Nat × Bytes) Nat
  | _, sum, [] => .ok sum
  | i, sum, .dict raw d :: fs =>
    match lookupInt (.dict raw d) (bytes "length") with
    | .error msg => .error (sum, msg)
    | .ok num =>
      if num < 0 then .error (sum, bytes "Meta-data: invalid or missing file length")
      else
        match lookupList (.dict raw d) (bytes "path") with
        | .error msg => .error (sum, msg)
        | .ok _ => sumFiles (i + 1) ((sum + num.toNat) % 2 ^ 64) fs
  | i, sum, _ :: _ =>
    .error (sum, bytes "Meta-data: wrong `info/files[" ++ decimal i ++
      bytes "]' type, must be LIST")

/-- How far `SetMetadata` gets with the dictionary before `SetTotalLength`, with
the values it has assigned to `piece_length` and `total_length` by then. -/
inductive Reading
  | noPieceLength (msg : Bytes)
  | noLength (pieceLength : Nat) (msg : Bytes)
  | badFile (pieceLength sum : Nat) (msg : Bytes)
  | lengths (pieceLength totalLength : Nat)

/-- The part of `SetMetadata` that assigns `total_length`. -/
def readLengths (info : BeNode) (pl : Nat) : Reading :=
  match lookup info (bytes "files") with
  | none =>
    match lookupInt info (bytes "length") with
    | .error msg => .noLength pl msg
    | .ok num =>
      if num < 0 then .noLength pl (bytes "Meta-data: invalid or missing length")
      else .lengths pl num.toNat
  | some (.list fs) =>
    match sumFiles 0 0 fs with
    | .error (sum, msg) => .badFile pl sum msg
    | .ok sum => .lengths pl sum
  | some _ => .noLength pl (bytes "Meta-data: wrong `info/files' type, must be LIST")

def readInfo (info : BeNode) : Reading :=
  match lookupInt info (bytes "piece length") with
  | .error msg => .noPieceLength msg
  | .ok num =>
    -- `INT_MAX/4`
    if num < 1024 ∨ num > (2 ^ 31 - 1) / 4 then
      .noPieceLength (bytes "Meta-data: invalid piece length")
    else readLengths info num.toNat

/-- The check of `pieces`: `SHA1_DIGEST_SIZE` bytes for each piece, the product
taken in 32 bits. -/
def readHashes (info : BeNode) (totalPieces : Nat) : Except Bytes Bytes :=
  match lookupStr info (bytes "pieces") with
  | .error msg => .error msg
  | .ok s =>
    if s.length = 20 * totalPieces % 2 ^ 32 then .ok s
    else .error (bytes "Meta-data: invalid `pieces' length")

/-- The metainfo file: its info dictionary and the text of it. -/
def readMetainfo (buf : Bytes) : Except Bytes (BeNode × Bytes) :=
  match parse buf with
  | (none, _) => .error (bytes "Meta-data parse error")
  | (some tree, rest) =>
    if 0 < rest then .error (bytes "Junk at the end of Meta-data")
    else
      match tree with
      | .dict raw d => lookupDict (.dict raw d) (bytes "info")
      | _ => .error (bytes "Meta-data: wrong top level type, must be DICT")

namespace Torrent

/-- `Torrent::Torrent`, with the options that are set right after it. -/
def new (forceValid buildMd stopIfComplete : Bool) : Torrent where
  shuttingDown := false
  validating := false
  forceValid := forceValid
  buildMd := buildMd
  stopIfComplete := stopIfComplete
  files := false
  validateIndex := 0
  invalidCause := none
  building := none
  info := none
  metadata := none
  infoHash := none
  hashes := []
  table := .empty

/-- `Torrent::Shutdown`, with the `building=0` of `PrepareToDie`. -/
def shutdown (t : Torrent) : Torrent :=
  if t.shuttingDown then t else { t with shuttingDown := true, building := none }

/-- `Torrent::SetError`. -/
def setError (t : Torrent) (msg : Bytes) : Torrent :=
  if t.invalidCause.isSome then t else { t with invalidCause := some msg }.shutdown

/-- `Torrent::StartValidating`. -/
def startValidating (t : Torrent) : Torrent := { t with validateIndex := 0, validating := true }

/-- `Torrent::Startup`; `other` says that another torrent has this hash. -/
def startup (t : Torrent) (other : Bool) : Torrent :=
  let t := if t.infoHash.isNone ∨ t.metadata.isNone then t.setError (bytes "missing metadata")
    else t
  if t.shuttingDown then t
  else if other then t.setError (bytes "This torrent is already running")
  else if t.forceValid = false ∧ t.building.isNone then t.startValidating
  else { t with table := t.table.allValid }

/-- `info_hash && info_hash.ne(new_info_hash)`. -/
def hashDiffers (sha1 : Bytes → Bytes) (t : Torrent) (md : Bytes) : Bool :=
  t.infoHash.any fun hash => hash != sha1 md

/-- `SetMetadata` from where it has the dictionary. -/
def setInfo (t : Torrent) (info : BeNode) : Torrent × Bool :=
  let t := { t with info := some info }
  match readInfo info with
  | .noPieceLength msg => (t.setError msg, false)
  | .noLength pl msg => ({ t with table := { t.table with pieceLength := pl } }.setError msg, false)
  | .badFile pl sum msg =>
    ({ t with table := { t.table with pieceLength := pl, totalLength := sum } }.setError msg, false)
  | .lengths pl tl =>
    let t := { t with
      files := true
      table := { t.table with pieceLength := pl }.setTotalLength tl }
    match readHashes info t.table.totalPieces with
    | .error msg => (t.setError msg, false)
    | .ok hashes => ({ t with hashes := hashes }, true)

/-- `Torrent::SetMetadata`. -/
def setMetadata (sha1 : Bytes → Bytes) (t : Torrent) (md : Bytes) : Torrent × Bool :=
  if t.hashDiffers sha1 md then
    ({ t with metadata := none }.setError (bytes "metadata does not match info_hash"), false)
  else
    let t := { t with metadata := some md, infoHash := some (sha1 md) }
    match t.info.or (parse md).1 with
    | none => (t.setError (bytes "cannot parse metadata"), false)
    | some info => t.setInfo info

/-- What `RetrieveBlock` returns, and the error it may set. -/
def retrieveBlock (t : Torrent) (r : Except Bytes Bytes) : Torrent × Bytes :=
  match r with
  | .ok buf => (t, buf)
  | .error msg => (t.setError msg, [])

/-- `valid` as `ValidatePiece` computes it. -/
def pieceValid (sha1 : Bytes → Bytes) (t : Torrent) (p : Nat) (buf : Bytes) : Bool :=
  buf.length == t.table.pieceLengthOf p &&
    (t.building.isSome || (t.hashes.drop (p * 20)).take 20 == sha1 buf)

/-- `Torrent::ValidatePiece`. -/
def validatePiece (sha1 : Bytes → Bytes) (t : Torrent) (p : Nat) (r : Except Bytes Bytes) :
    Torrent :=
  let (t, buf) := t.retrieveBlock r
  if t.pieceValid sha1 p buf then
    { t with
      building := t.building.map fun b => b.setPiece (sha1 buf)
      table := t.table.pieceOk p }
  else if t.building.isSome then t.setError (bytes "File validation error")
  else { t with table := t.table.pieceBad p }

/-! ## The phases of `Do` -/

/-- The metainfo file has arrived. -/
def metainfoDone (sha1 : Bytes → Bytes) (t : Torrent) (buf : Bytes) (other : Bool) : Torrent :=
  if t.info.isSome ∨ t.buildMd then t
  else
    match readMetainfo buf with
    | .error msg => t.setError msg
    | .ok (info, raw) =>
      let (t, ok) := { t with info := some info }.setMetadata sha1 raw
      if ok then t.startup other else t

/-- `MetadataDownloaded`, or `StartMetadataDownload` with cached metadata; the
latter may stop a known torrent. -/
def metadataDone (sha1 : Bytes → Bytes) (t : Torrent) (md : Bytes) (stop other : Bool) :
    Torrent :=
  if t.hashDiffers sha1 md then t
  else
    let (t, ok) := t.setMetadata sha1 md
    if ok then (if stop then t.shutdown else t.startup other) else t

/-- The scan of a shared directory is done. -/
def buildDone (t : Torrent) (b : Build) : Torrent :=
  if t.buildMd ∧ t.files = false then
    { t with
      building := some b
      files := true
      table := { t.table with pieceLength := b.pieceLength }.setTotalLength b.totalLength
    }.startValidating
  else t

/-- The branch `if(validating)`, up to the end of the shared files' part. -/
def validate (sha1 : Bytes → Bytes) (t : Torrent) (r : Except Bytes Bytes) : Torrent :=
  if t.validating then
    let t := { t.validatePiece sha1 t.validateIndex r with validateIndex := t.validateIndex + 1 }
    if t.validateIndex < t.table.totalPieces then t
    else
      let t := { t with validating := false }
      if t.table.totalLeft = 0 then
        let t := { t with table := { t.table with complete := true } }
        if t.stopIfComplete then t.shutdown else t
      else if t.building.isSome ∧ t.table.complete = false then
        t.setError (bytes "File validation error")
      else t
  else t

/-- The end of that branch for shared files, right after `validate`. -/
def finishBuild (sha1 : Bytes → Bytes) (t : Torrent) (other : Bool) : Torrent :=
  match t.building with
  | none => t
  | some b =>
    if t.validating = false ∧ t.files then
      let (t, ok) := t.setMetadata sha1 b.getMetadata
      if ok then { t with building := none }.startup other else t
    else t

/-- The end of `StoreBlock`, after the block is written. `HandlePacket` has
checked the index. -/
def storeBlock (sha1 : Bytes → Bytes) (t : Torrent) (piece start len : Nat)
    (r : Except Bytes Bytes) : Torrent :=
  if piece < t.table.totalPieces then
    let table := (List.range' (start / blockSize) ((len + blockSize - 1) / blockSize)).foldl
      (fun table b => table.setBlockPresent piece b) t.table
    let t := { t with table }
    if t.table.allBlocksPresent piece ∧ t.table.myBitfield.getBit piece = false then
      let t := t.validatePiece sha1 piece r
      if t.table.myBitfield.getBit piece ∧
          t.table.myBitfield.hasAllSet 0 t.table.myBitfield.bitLength then
        { t with table := { t.table with complete := true } }
      else t
    else t
  else t

end Torrent

/-! ## Events -/

inductive Event
  | metainfo (buf : Bytes) (other : Bool)
  | metadata (md : Bytes) (stop other : Bool)
  | buildDone (b : Build)
  | validate (r : Except Bytes Bytes)
  | finishBuild (other : Bool)
  | storeBlock (piece start len : Nat) (r : Except Bytes Bytes)
  | error (msg : Bytes)
  | shutdown
  | restart (forceValid buildMd stopIfComplete : Bool)

/-- The condition for sizing the table anew: nothing counted in the old one. -/
def Fresh (t : Pieces) (pl tl : Nat) : Prop :=
  t.completePieces = 0 ∧ (t.complete = true → Pieces.countPieces pl tl = 0)

/-- When a dictionary may be set. A rejected one may have changed the length of a
piece and the total length; for an accepted one it matters whether `Startup`
`skips` validation. -/
def InfoOk (t : Pieces) (info : BeNode) (skips : Bool) : Prop :=
  match readInfo info with
  | .noPieceLength _ => True
  | .noLength pl _ => Pieces.presentLength { t with pieceLength := pl } = t.presentLength
  | .badFile pl sum _ => t.totalLeft + Pieces.presentLength { t with pieceLength := pl } = sum
  | .lengths pl tl =>
    if skips = true ∧ (readHashes info (Pieces.countPieces pl tl)).isOk = true then
      Pieces.Fits pl tl
    else Fresh t pl tl

/-- `Startup` takes the data for valid. -/
def Torrent.skips (t : Torrent) (other : Bool) : Bool :=
  (t.forceValid || t.building.isSome) && !other

namespace Event

variable (sha1 : Bytes → Bytes)

def act (t : Torrent) : Event → Torrent
  | metainfo buf other => t.metainfoDone sha1 buf other
  | metadata md stop other => t.metadataDone sha1 md stop other
  | buildDone b => t.buildDone b
  | validate r => t.validate sha1 r
  | finishBuild other => t.finishBuild sha1 other
  | storeBlock piece start len r => t.storeBlock sha1 piece start len r
  | error msg => t.setError msg
  | shutdown => t.shutdown
  | restart forceValid buildMd stopIfComplete => .new forceValid buildMd stopIfComplete

/-- The condition on the state before the event. -/
def Ok (t : Torrent) : Event → Prop
  | metainfo buf other =>
    ∀ info raw, readMetainfo buf = .ok (info, raw) → t.hashDiffers sha1 raw = false →
      InfoOk t.table info (t.skips other)
  | metadata md stop other =>
    ∀ info, t.info.or (parse md).1 = some info → t.hashDiffers sha1 md = false →
      InfoOk t.table info (!stop && t.skips other)
  | buildDone b => t.files = false → Fresh t.table b.pieceLength b.totalLength
  | validate r =>
    t.validating = true →
      t.validateIndex < t.table.totalPieces ∧
      (t.table.myBitfield.getBit t.validateIndex = true → t.table.complete = true →
        (t.retrieveBlock r).1.building.isSome = true ∨
          (t.retrieveBlock r).1.pieceValid sha1 t.validateIndex (t.retrieveBlock r).2 = true)
  | finishBuild other =>
    ∀ b, t.building = some b → t.validating = false →
      ∀ info, t.info.or (parse b.getMetadata).1 = some info →
        t.hashDiffers sha1 b.getMetadata = false → InfoOk t.table info (t.forceValid && !other)
  | _ => True

end Event

/-- A step; a torrent that is shut down can only be started anew. -/
def Step (sha1 : Bytes → Bytes) (ok : Torrent → Event → Prop) (t : Torrent) (e : Event)
    (t' : Torrent) : Prop :=
  (t.shuttingDown = true → ∃ f b s, e = .restart f b s) ∧ ok t e ∧ t' = e.act sha1 t

def Started (t : Torrent) : Prop := ∃ f b s, t = .new f b s

/-! ## The invariant -/

/-- The counters are exact, the table of a live torrent fits its length, and an
error has shut the torrent down. -/
structure Inv (t : Torrent) : Prop where
  exact : t.table.Exact
  sized : t.shuttingDown = false → t.table.Sized
  caused : t.invalidCause.isSome = true → t.shuttingDown = true

section Invariant

variable {sha1 : Bytes → Bytes} {t : Torrent}

open Torrent

@[simp] theorem table_shutdown : t.shutdown.table = t.table := by
  unfold Torrent.shutdown
  split <;> rfl

@[simp] theorem table_setError (msg : Bytes) : (t.setError msg).table = t.table := by
  unfold Torrent.setError
  split
  · rfl
  · rw [table_shutdown]

@[simp] theorem shuttingDown_shutdown : t.shutdown.shuttingDown = true := by
  unfold Torrent.shutdown
  split
  · next h => exact h
  · rfl

theorem caused_setError (h : t.invalidCause.isSome = true → t.shuttingDown = true) (msg : Bytes) :
    (t.setError msg).shuttingDown = true := by
  unfold Torrent.setError
  split
  · next hCause => exact h hCause
  · exact shuttingDown_shutdown

theorem Inv.of_shutdown (hExact : t.table.Exact) (hDown : t.shuttingDown = true) : Inv t where
  exact := hExact
  sized hLive := absurd (hLive.symm.trans hDown) Bool.false_ne_true
  caused _ := hDown

theorem Inv.new (f b s : Bool) : Inv (.new f b s) where
  exact := Pieces.exact_empty
  sized _ := Pieces.sized_empty
  caused h := absurd h Bool.false_ne_true

theorem Inv.shutdown (h : Inv t) : Inv t.shutdown := by
  apply Inv.of_shutdown _ shuttingDown_shutdown
  rw [table_shutdown]
  exact h.exact

theorem Inv.setError (hExact : t.table.Exact)
    (hCaused : t.invalidCause.isSome = true → t.shuttingDown = true) (msg : Bytes) :
    Inv (t.setError msg) := by
  apply Inv.of_shutdown _ (caused_setError hCaused msg)
  rw [table_setError]
  exact hExact

/-! ### Metadata -/

theorem sumFiles_lt {i sum tl : Nat} {fs : List BeNode} (hSum : sum < 2 ^ 64)
    (h : sumFiles i sum fs = .ok tl) : tl < 2 ^ 64 := by
  induction fs generalizing i sum with
  | nil =>
      rw [sumFiles, Except.ok.injEq] at h
      exact h ▸ hSum
  | cons f fs ih =>
      cases f with
      | dict raw d =>
          rw [sumFiles] at h
          split at h
          · cases h
          · split at h
            · cases h
            · split at h
              · cases h
              · exact ih (Nat.mod_lt _ (by decide)) h
      | _ => cases h

/-- The bounds that the accepted lengths have. -/
theorem readInfo_lengths {info : BeNode} {pl tl : Nat} (h : readInfo info = .lengths pl tl) :
    0 < pl ∧ tl < 2 ^ 64 := by
  unfold readInfo at h
  split at h
  · cases h
  · next num _ =>
    split at h
    · cases h
    · next hBounds =>
      unfold readLengths at h
      split at h
      · split at h
        · cases h
        · next num' hLookup =>
          split at h
          · cases h
          · rw [Reading.lengths.injEq] at h
            have hInt : num' < 2 ^ 63 := by
              unfold lookupInt lookupAs at hLookup
              split at hLookup
              · cases hLookup
              · next v _ =>
                cases v with
                | int n =>
                    have hLt := BitVec.toInt_lt (x := n)
                    simp only [Except.ok.injEq] at hLookup
                    omega
                | _ => cases hLookup
            omega
      · next fs _ =>
        split at h
        · cases h
        · next hFiles =>
          rw [Reading.lengths.injEq] at h
          have hLt := sumFiles_lt (by decide) hFiles
          omega
      · cases h

/-- The two outcomes of setting a dictionary: an error, or a new table that is
right for the branch `Startup` will take. -/
def Settled (t : Torrent) (info : BeNode) (skips : Bool) (r : Torrent × Bool) : Prop :=
  (r.2 = false → Inv r.1) ∧
  (r.2 = true → ∃ hashes table,
    r.1 = { t with info := some info, files := true, table, hashes } ∧
    table.Sized ∧ if skips then table.allValid.Exact else table.Exact)

theorem settled_setError {info : BeNode} {skips : Bool} {u : Torrent} {msg : Bytes}
    (hExact : u.table.Exact) (hCaused : u.invalidCause.isSome = true → u.shuttingDown = true) :
    Settled t info skips (u.setError msg, false) :=
  ⟨fun _ => Inv.setError hExact hCaused msg, fun hTrue => absurd hTrue Bool.false_ne_true⟩

theorem setInfo_spec (hCaused : t.invalidCause.isSome = true → t.shuttingDown = true)
    (hExact : t.table.Exact) {info : BeNode} {skips : Bool} (hOk : InfoOk t.table info skips) :
    Settled t info skips (t.setInfo info) := by
  unfold Torrent.setInfo
  unfold InfoOk at hOk
  cases hRead : readInfo info with
  | noPieceLength msg =>
      apply settled_setError
      · exact hExact
      · exact hCaused
  | noLength pl msg =>
      rw [hRead] at hOk
      apply settled_setError
      · refine ⟨hExact.complete_pieces, ?_, hExact.complete⟩
        show t.table.totalLeft + _ = t.table.totalLength
        rw [hOk]
        exact hExact.total_left
      · exact hCaused
  | badFile pl sum msg =>
      rw [hRead] at hOk
      apply settled_setError
      · exact ⟨hExact.complete_pieces, hOk, hExact.complete⟩
      · exact hCaused
  | lengths pl tl =>
      rw [hRead] at hOk
      rcases readInfo_lengths hRead with ⟨hPos, hLt⟩
      have hSized : (Pieces.setTotalLength { t.table with pieceLength := pl } tl).Sized :=
        Pieces.sized_setTotalLength hPos hLt
      have hFresh : Fresh t.table pl tl →
          (Pieces.setTotalLength { t.table with pieceLength := pl } tl).Exact :=
        fun h => Pieces.exact_setTotalLength_iff.mpr h
      have hFits : Pieces.Fits pl tl →
          (Pieces.setTotalLength { t.table with pieceLength := pl } tl).allValid.Exact :=
        fun h => Pieces.exact_allValid_setTotalLength hPos hLt h
      have hTotal : (Pieces.setTotalLength { t.table with pieceLength := pl } tl).totalPieces =
          Pieces.countPieces pl tl := rfl
      dsimp only at hOk ⊢
      rw [hTotal]
      cases hHashes : readHashes info (Pieces.countPieces pl tl) with
      | error msg =>
          rw [hHashes, if_neg fun h => Bool.false_ne_true h.2] at hOk
          apply settled_setError
          · exact hFresh hOk
          · exact hCaused
      | ok hashes =>
          rw [hHashes] at hOk
          refine ⟨fun h => absurd h.symm Bool.false_ne_true, fun _ => ?_⟩
          refine ⟨hashes, _, rfl, hSized, ?_⟩
          cases skips with
          | true =>
              rw [if_pos ⟨rfl, rfl⟩] at hOk
              exact hFits hOk
          | false =>
              rw [if_neg fun h => Bool.false_ne_true h.1] at hOk
              exact hFresh hOk

theorem setMetadata_spec (h : Inv t) {md : Bytes} {skips : Bool}
    (hOk : ∀ info, t.info.or (parse md).1 = some info → t.hashDiffers sha1 md = false →
      InfoOk t.table info skips) :
    ((t.setMetadata sha1 md).2 = false → Inv (t.setMetadata sha1 md).1) ∧
    ((t.setMetadata sha1 md).2 = true → ∃ info hashes table,
      (t.setMetadata sha1 md).1 =
        { t with
          metadata := some md, infoHash := some (sha1 md), info := some info,
          files := true, table, hashes } ∧
      table.Sized ∧ if skips then table.allValid.Exact else table.Exact) := by
  unfold Torrent.setMetadata
  cases hDiffers : t.hashDiffers sha1 md with
  | true =>
      rw [if_pos rfl]
      refine ⟨fun _ => ?_, fun hTrue => absurd hTrue Bool.false_ne_true⟩
      apply Inv.setError
      · exact h.exact
      · exact h.caused
  | false =>
      rw [if_neg Bool.false_ne_true]
      dsimp only
      cases hInfo : t.info.or (parse md).1 with
      | none =>
          refine ⟨fun _ => ?_, fun hTrue => absurd hTrue Bool.false_ne_true⟩
          apply Inv.setError
          · exact h.exact
          · exact h.caused
      | some info =>
          have hSettled := setInfo_spec
            (t := { t with metadata := some md, infoHash := some (sha1 md) })
            h.caused h.exact (hOk info hInfo hDiffers)
          refine ⟨hSettled.1, fun hTrue => ?_⟩
          rcases hSettled.2 hTrue with ⟨hashes, table, hEq, hTable⟩
          exact ⟨info, hashes, table, hEq, hTable⟩

/-! ### `Startup` -/

theorem startup_inv {other : Bool} (hLive : t.shuttingDown = false)
    (hHash : t.infoHash.isNone = false) (hMetadata : t.metadata.isNone = false)
    (hCaused : t.invalidCause.isSome = true → t.shuttingDown = true) (hSized : t.table.Sized)
    (hTable : if t.skips other then t.table.allValid.Exact else t.table.Exact) :
    Inv (t.startup other) := by
  unfold Torrent.startup
  unfold Torrent.skips at hTable
  have hPresent : ¬ (t.infoHash.isNone = true ∨ t.metadata.isNone = true) := by
    rw [hHash, hMetadata]
    simp
  dsimp only
  rw [if_neg hPresent, if_neg (Bool.eq_false_iff.mp hLive)]
  cases other with
  | true =>
      rw [Bool.not_true, Bool.and_false, if_neg Bool.false_ne_true] at hTable
      rw [if_pos rfl]
      exact Inv.setError hTable hCaused _
  | false =>
      rw [if_neg Bool.false_ne_true]
      by_cases hCheck : t.forceValid = false ∧ t.building.isNone = true
      · have hNone : t.building.isSome = false := by
          rw [← Option.not_isNone, hCheck.2]
          rfl
        rw [hCheck.1, hNone, Bool.or_false, Bool.false_and, if_neg Bool.false_ne_true] at hTable
        rw [if_pos hCheck]
        exact ⟨hTable, fun _ => hSized, hCaused⟩
      · have hSkip : ((t.forceValid || t.building.isSome) && !false) = true := by
          cases hForce : t.forceValid with
          | true => rfl
          | false =>
              rw [hForce] at hCheck
              cases hBuilding : t.building with
              | none => exact absurd ⟨rfl, by rw [hBuilding]; rfl⟩ hCheck
              | some b => rfl
        rw [hSkip, if_pos rfl] at hTable
        rw [if_neg hCheck]
        exact ⟨hTable, fun _ => Pieces.sized_allValid hSized, hCaused⟩

theorem metainfoDone_inv (h : Inv t) (hLive : t.shuttingDown = false) {buf : Bytes}
    {other : Bool} (hOk : Event.Ok sha1 t (.metainfo buf other)) :
    Inv (t.metainfoDone sha1 buf other) := by
  unfold Torrent.metainfoDone
  split
  · exact h
  · cases hRead : readMetainfo buf with
    | error msg => exact Inv.setError h.exact h.caused msg
    | ok found =>
        rcases found with ⟨info, raw⟩
        have hInv : Inv { t with info := some info } := ⟨h.exact, h.sized, h.caused⟩
        have hFound : ∀ info', (some info).or (parse raw).1 = some info' →
            t.hashDiffers sha1 raw = false → InfoOk t.table info' (t.skips other) := by
          intro info' hInfo hSame
          rw [Option.some_or, Option.some.injEq] at hInfo
          exact hInfo ▸ hOk info raw hRead hSame
        have hSpec := @setMetadata_spec sha1 _ hInv raw _ hFound
        dsimp only
        cases hSet : (Torrent.setMetadata sha1 { t with info := some info } raw).2 with
        | false =>
            rw [if_neg Bool.false_ne_true]
            exact hSpec.1 hSet
        | true =>
            rw [if_pos rfl]
            rcases hSpec.2 hSet with ⟨info', hashes, table, hEq, hSized, hTable⟩
            rw [hEq]
            exact startup_inv hLive rfl rfl h.caused hSized hTable

theorem metadataDone_inv (h : Inv t) (hLive : t.shuttingDown = false) {md : Bytes}
    {stop other : Bool} (hOk : Event.Ok sha1 t (.metadata md stop other)) :
    Inv (t.metadataDone sha1 md stop other) := by
  unfold Torrent.metadataDone
  split
  · exact h
  · have hSpec := setMetadata_spec h hOk
    dsimp only
    cases hSet : (t.setMetadata sha1 md).2 with
    | false =>
        rw [if_neg Bool.false_ne_true]
        exact hSpec.1 hSet
    | true =>
        rw [if_pos rfl]
        rcases hSpec.2 hSet with ⟨info, hashes, table, hEq, hSized, hTable⟩
        rw [hEq]
        cases stop with
        | true =>
            rw [if_pos rfl]
            apply Inv.shutdown
            exact ⟨hTable, fun _ => hSized, h.caused⟩
        | false =>
            rw [if_neg Bool.false_ne_true]
            exact startup_inv hLive rfl rfl h.caused hSized hTable

theorem finishBuild_inv (h : Inv t) (hLive : t.shuttingDown = false) {other : Bool}
    (hOk : Event.Ok sha1 t (.finishBuild other)) : Inv (t.finishBuild sha1 other) := by
  unfold Torrent.finishBuild
  cases hBuilding : t.building with
  | none => exact h
  | some b =>
      dsimp only
      split
      · next hDone =>
        have hSpec := setMetadata_spec h (hOk b hBuilding hDone.1)
        cases hSet : (t.setMetadata sha1 b.getMetadata).2 with
        | false =>
            rw [if_neg Bool.false_ne_true]
            exact hSpec.1 hSet
        | true =>
            rw [if_pos rfl]
            rcases hSpec.2 hSet with ⟨info, hashes, table, hEq, hSized, hTable⟩
            rw [hEq]
            apply startup_inv
            · exact hLive
            · rfl
            · rfl
            · exact h.caused
            · exact hSized
            · show if (t.forceValid || false) && !other then _ else _
              rw [Bool.or_false]
              exact hTable
      · exact h

theorem buildDone_inv (h : Inv t) {b : Build} (hOk : Event.Ok sha1 t (.buildDone b)) :
    Inv (t.buildDone b) := by
  have hLength := b.totalLength_lt
  unfold Torrent.buildDone
  split
  · next hStart =>
    refine ⟨?_, fun _ => ?_, h.caused⟩
    · exact Pieces.exact_setTotalLength_iff.mpr (hOk hStart.2)
    · exact Pieces.sized_setTotalLength b.pieceLength_pos (by omega)
  · exact h

/-! ### Pieces -/

theorem retrieveBlock_table (r : Except Bytes Bytes) : (t.retrieveBlock r).1.table = t.table := by
  unfold Torrent.retrieveBlock
  cases r with
  | ok buf => rfl
  | error msg => exact table_setError msg

theorem retrieveBlock_caused (h : t.invalidCause.isSome = true → t.shuttingDown = true)
    (r : Except Bytes Bytes) (hCause : (t.retrieveBlock r).1.invalidCause.isSome = true) :
    (t.retrieveBlock r).1.shuttingDown = true := by
  cases r with
  | ok buf => exact h hCause
  | error msg => exact caused_setError h msg

theorem validatePiece_spec (h : Inv t) (hSized : t.table.Sized) {p : Nat}
    (hp : p < t.table.totalPieces) {r : Except Bytes Bytes}
    (hKept : t.table.myBitfield.getBit p = true → t.table.complete = true →
      (t.retrieveBlock r).1.building.isSome = true ∨
        (t.retrieveBlock r).1.pieceValid sha1 p (t.retrieveBlock r).2 = true) :
    Inv (t.validatePiece sha1 p r) ∧ (t.validatePiece sha1 p r).table.Sized := by
  have hTable := retrieveBlock_table (t := t) r
  have hCaused := retrieveBlock_caused h.caused r
  unfold Torrent.validatePiece
  dsimp only
  generalize t.retrieveBlock r = rb at *
  have hExact : rb.1.table.Exact := hTable ▸ h.exact
  rw [← hTable] at hSized hp hKept
  cases hValid : rb.1.pieceValid sha1 p rb.2 with
  | true =>
      rw [if_pos rfl]
      exact ⟨⟨hExact.pieceOk hSized hp, fun _ => hSized.pieceOk, hCaused⟩, hSized.pieceOk⟩
  | false =>
      rw [if_neg Bool.false_ne_true]
      cases hBuilding : rb.1.building.isSome with
      | true =>
          rw [if_pos rfl, table_setError]
          exact ⟨Inv.setError hExact hCaused _, hSized⟩
      | false =>
          rw [if_neg Bool.false_ne_true]
          have hOpen : rb.1.table.myBitfield.getBit p = true → rb.1.table.complete = false := by
            intro hBit
            apply Bool.eq_false_iff.mpr
            intro hComplete
            rcases hKept hBit hComplete with hSome | hTrue
            · exact Bool.false_ne_true (hBuilding.symm.trans hSome)
            · exact Bool.false_ne_true (hValid.symm.trans hTrue)
          exact ⟨⟨hExact.pieceBad hSized hp hOpen, fun _ => hSized.pieceBad, hCaused⟩,
            hSized.pieceBad⟩

theorem validate_inv (h : Inv t) (hLive : t.shuttingDown = false) {r : Except Bytes Bytes}
    (hOk : Event.Ok sha1 t (.validate r)) : Inv (t.validate sha1 r) := by
  unfold Torrent.validate
  split
  · next hValidating =>
    rcases hOk hValidating with ⟨hp, hKept⟩
    rcases validatePiece_spec h (h.sized hLive) hp hKept with ⟨hInv, hSized⟩
    dsimp only
    generalize t.validatePiece sha1 t.validateIndex r = u at hInv hSized
    split
    · exact ⟨hInv.exact, hInv.sized, hInv.caused⟩
    · split
      · next hZero =>
        have hDone := hInv.exact.setComplete (hInv.exact.all_of_totalLeft hSized hZero)
        split
        · apply Inv.shutdown
          exact ⟨hDone, fun _ => hSized.setComplete, hInv.caused⟩
        · exact ⟨hDone, fun _ => hSized.setComplete, hInv.caused⟩
      · split
        · apply Inv.setError
          · exact hInv.exact
          · exact hInv.caused
        · exact ⟨hInv.exact, hInv.sized, hInv.caused⟩
  · exact h

theorem setBlocks_spec {table : Pieces} (hExact : table.Exact) (hSized : table.Sized)
    (piece : Nat) (bs : List Nat) :
    (bs.foldl (fun table b => table.setBlockPresent piece b) table).Exact ∧
    (bs.foldl (fun table b => table.setBlockPresent piece b) table).Sized ∧
    (bs.foldl (fun table b => table.setBlockPresent piece b) table).totalPieces =
      table.totalPieces := by
  induction bs generalizing table with
  | nil => exact ⟨hExact, hSized, rfl⟩
  | cons b bs ih => exact ih (hExact.setBlockPresent piece b) (hSized.setBlockPresent piece b)

theorem storeBlock_inv (h : Inv t) (hLive : t.shuttingDown = false) (piece start len : Nat)
    (r : Except Bytes Bytes) : Inv (t.storeBlock sha1 piece start len r) := by
  unfold Torrent.storeBlock
  split
  · next hp =>
    have hBlocks := setBlocks_spec h.exact (h.sized hLive) piece
      (List.range' (start / blockSize) ((len + blockSize - 1) / blockSize))
    dsimp only
    generalize (List.range' (start / blockSize) ((len + blockSize - 1) / blockSize)).foldl
      (fun table b => table.setBlockPresent piece b) t.table = table at hBlocks
    rcases hBlocks with ⟨hExact, hSized, hTotal⟩
    have hInv : Inv { t with table } := ⟨hExact, fun _ => hSized, h.caused⟩
    split
    · next hFull =>
      have hSpec := @validatePiece_spec sha1 _ hInv hSized piece (hTotal.symm ▸ hp) r
        fun hBit => absurd (hFull.2.symm.trans hBit) Bool.false_ne_true
      generalize Torrent.validatePiece sha1 { t with table } piece r = u at hSpec
      rcases hSpec with ⟨hInv', hSized'⟩
      split
      · next hAll =>
        have hDone := BitField.hasAllSet_eq_true_iff.mp hAll.2
        rw [hSized'.bit_length] at hDone
        exact ⟨hInv'.exact.setComplete hDone, fun _ => hSized'.setComplete, hInv'.caused⟩
      · exact hInv'
    · exact hInv
  · exact h

theorem step_inv (h : Inv t) {e : Event} {t' : Torrent}
    (hStep : Step sha1 (Event.Ok sha1) t e t') : Inv t' := by
  rcases hStep with ⟨hLive, hOk, rfl⟩
  cases hDown : t.shuttingDown with
  | true =>
      rcases hLive hDown with ⟨f, b, s, rfl⟩
      exact Inv.new f b s
  | false =>
      cases e with
      | metainfo buf other => exact metainfoDone_inv h hDown hOk
      | metadata md stop other => exact metadataDone_inv h hDown hOk
      | buildDone b => exact buildDone_inv h hOk
      | validate r => exact validate_inv h hDown hOk
      | finishBuild other => exact finishBuild_inv h hDown hOk
      | storeBlock piece start len r => exact storeBlock_inv h hDown piece start len r
      | error msg => exact Inv.setError h.exact h.caused msg
      | shutdown => exact h.shutdown
      | restart f b s => exact Inv.new f b s

end Invariant

/-- In every run whose events meet their condition, the counters are exact in
every state. -/
theorem accounting_exact {sha1 : Bytes → Bytes} {t : Torrent}
    (h : Reach Started (Step sha1 (Event.Ok sha1)) t) :
    t.table.completePieces = t.table.myBitfield.count ∧
    t.table.totalLeft + t.table.presentLength = t.table.totalLength ∧
    (t.table.complete = true → ∀ p < t.table.totalPieces, t.table.myBitfield.getBit p = true) := by
  have hInv : Inv t := by
    apply Reach.invariant (I := Inv) _ _ h
    · rintro t ⟨f, b, s, rfl⟩
      exact Inv.new f b s
    · intro t e t' hInv hStep
      exact step_inv hInv hStep
  exact ⟨hInv.exact.complete_pieces, hInv.exact.total_left, hInv.exact.complete⟩

/-! A shared file of one piece. -/

def zeroHash : Bytes → Bytes := fun _ => List.replicate 20 0

def oneFile : Build where
  info := [(bytes "name", .str (bytes "f")), (bytes "piece length", .int 16384),
    (bytes "length", .int 5)]
  pieces := []
  totalLength := 5
  pieceLength := 16384
  pieceLength_pos := by decide
  totalLength_lt := by decide

/-- The scan is done and the piece is read. -/
def shared : Torrent :=
  ((Torrent.new false true false).buildDone oneFile).validate zeroHash (.ok (bytes "hello"))

theorem reach_shared {ok : Torrent → Event → Prop}
    (hBuild : ok (.new false true false) (.buildDone oneFile))
    (hValidate : ok ((Torrent.new false true false).buildDone oneFile)
      (.validate (.ok (bytes "hello")))) : Reach Started (Step zeroHash ok) shared := by
  have hStart : Reach Started (Step zeroHash ok) (.new false true false) :=
    .start ⟨false, true, false, rfl⟩
  have hBuilt := hStart.next (.buildDone oneFile)
    ⟨fun h => absurd h Bool.false_ne_true, hBuild, rfl⟩
  exact hBuilt.next (.validate (.ok (bytes "hello")))
    ⟨fun h => absurd h Bool.false_ne_true, hValidate, rfl⟩

theorem accounting_exact_shared :
    shared.table.completePieces = shared.table.myBitfield.count ∧ shared.table.complete = true := by
  have hReach : Reach Started (Step zeroHash (Event.Ok zeroHash)) shared := by
    apply reach_shared
    · intro _
      exact ⟨rfl, fun h => absurd h Bool.false_ne_true⟩
    · intro _
      exact ⟨by decide, fun h => absurd h (by decide)⟩
  exact ⟨(accounting_exact hReach).1, by decide⟩

/-- Then `SetMetadata` sizes the table anew: the piece is counted, `complete` is
set, and the bit field is empty. -/
theorem not_accounting_exact :
    ¬ ∀ (sha1 : Bytes → Bytes) (t : Torrent), Reach Started (Step sha1 fun _ _ => True) t →
      t.table.completePieces = t.table.myBitfield.count ∧
      t.table.totalLeft + t.table.presentLength = t.table.totalLength ∧
      (t.table.complete = true →
        ∀ p < t.table.totalPieces, t.table.myBitfield.getBit p = true) := by
  intro hAll
  have hReach : Reach Started (Step zeroHash fun _ _ => True) shared :=
    reach_shared trivial trivial
  have hNext := hReach.next (.finishBuild false)
    ⟨fun h => absurd h (by decide), trivial, rfl⟩
  have hComplete := (hAll zeroHash _ hNext).2.2
  exact absurd (hComplete (by decide) 0 (by decide)) (by decide)

end Lftp.Ports.TorrentAccounting
