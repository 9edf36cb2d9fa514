import Lftp.Verified.Scan

/-!
# The status file of a segmented download

A translation of `pgetJob::SaveStatus`, `LoadStatus0` and `LoadStatus`. The file
is the text itself, read back through the `scanf` directives; a store past the
arrays that `LoadStatus` allocates is a result of its own.

* `Download.Missing` are the bytes not downloaded when the file was written,
  `Resume.Covers` those that the resumed job will download.
* `loadLoop_lines` is what the reader makes of the writer's text.
* `resumable_iff` says when nothing is lost. The reader skips a chunk that has
  reached its limit without counting it, and so stops at the next one.
-/

namespace Lftp.Ports.PgetStatus

open Lftp.Verified

/-- A `ChunkXfer`. An error makes a chunk `Done` as well. -/
structure Chunk where
  pos : Nat
  limit : Nat
  done : Bool
  error : Bool

/-- A `pgetJob` at the time of `SaveStatus`; without chunks it is an ordinary copy. -/
structure Download where
  size : Nat
  pos : Nat
  limit0 : Nat
  chunks : List Chunk

/-! ## Writing -/

def posLine (i pos : Nat) : Bytes := decimal i ++ (bytes ".pos=" ++ (decimal pos ++ [ch '\n']))

def limitLine (i limit : Nat) : Bytes :=
  decimal i ++ (bytes ".limit=" ++ (decimal limit ++ [ch '\n']))

/-- The loop over the chunks, with the number of entries before it. -/
def chunkLines : Nat → List Chunk → Bytes
  | _, [] => []
  | i, c :: cs =>
    if c.done then chunkLines i cs
    else posLine (i + 1) c.pos ++ (limitLine (i + 1) c.limit ++ chunkLines (i + 1) cs)

def sizeLine (size : Nat) : Bytes := bytes "size=" ++ (decimal size ++ [ch '\n'])

/-- `SaveStatus`. -/
def saveStatus (d : Download) : Bytes :=
  sizeLine d.size ++ (posLine 0 d.pos ++
    (if d.chunks = [] then [] else limitLine 0 d.limit0 ++ chunkLines 0 d.chunks))

/-! ## Reading -/

/-- `fscanf(f,"%d.pos=%lld\n",...)` and its like, when both numbers are converted. -/
def scanField (lit : String) (s : Bytes) : Option (Int × Int × Bytes) :=
  (scanInt s).bind fun (j, s) =>
    (scanLit (bytes lit) s).bind fun s =>
      (scanInt s).map fun (v, s) => (j, v, skipSpace s)

/-- `fscanf(f,"size=%lld\n",&size)`. -/
def scanSize (s : Bytes) : Option (Int × Bytes) :=
  (scanLit (bytes "size=") s).bind fun s => (scanInt s).map fun (v, s) => (v, skipSpace s)

/-- How the loop of `LoadStatus` ends: at a store past the arrays, at
`out_close`, or with the entries read. -/
inductive Loop where
  | overrun
  | abandoned
  | entries (l : List (Int × Int))
deriving DecidableEq

/-- The loop, for arrays of `maxChunks` elements. Each turn reads at least one
byte, so the length of the file bounds their number. -/
def loadLoop (maxChunks : Nat) : Nat → Bytes → List (Int × Int) → Loop
  | 0, _, l => .entries l
  | fuel + 1, s, l =>
    match scanField ".pos=" s with
    | none => .entries l
    | some (j, pos, s) =>
      if maxChunks ≤ l.length then .overrun
      else if j ≠ l.length then .entries l
      else
        match scanField ".limit=" s with
        | none => .abandoned
        | some (j, limit, s) =>
          if j ≠ l.length then .abandoned
          else if 0 < l.length ∧ limit ≤ pos then loadLoop maxChunks fuel s l
          else loadLoop maxChunks fuel s (l ++ [(pos, limit)])

/-- What the job continues with: the start of the main copy, the limit of its
part, and the ranges of the chunks. -/
structure Resume where
  start : Int
  limit0 : Int
  chunks : List (Int × Int)
deriving DecidableEq

/-- `LoadStatus0`; without a position the copy starts at the beginning. -/
def loadStatus0 (file : Bytes) : Int :=
  match scanSize file with
  | none => 0
  | some (_, s) =>
    match scanField ".pos=" s with
    | some (0, pos, _) => pos
    | _ => 0

/-- The end of `LoadStatus`: the entries when the file has grown meanwhile. -/
def grown (maxChunks : Nat) (size curSize : Int) (l : List (Int × Int)) : Loop :=
  if size < curSize then
    match l.getLast? with
    | some (pos, limit) =>
      if limit = size then .entries (l.dropLast ++ [(pos, curSize)])
      else if maxChunks ≤ l.length then .overrun
      else .entries (l ++ [(size, curSize)])
    | none => .entries l
  else .entries l

/-- `LoadStatus`: the entries it uses, if it gets so far. -/
def loadStatus (file : Bytes) (curSize : Int) : Loop :=
  match scanSize file with
  | none => .abandoned
  | some (size, s) =>
    match loadLoop (file.length / 20) (file.length + 1) s [] with
    | .entries [] => .abandoned
    | .entries l => grown (file.length / 20) size curSize l
    | r => r

/-- The resumed job; `none` when `LoadStatus` writes past its arrays. -/
def resume (file : Bytes) (curSize : Int) : Option Resume :=
  match loadStatus file curSize with
  | .overrun => none
  | .entries ((pos, limit) :: chunks) => some ⟨pos, limit, chunks⟩
  | _ => some ⟨loadStatus0 file, 0, []⟩

/-! ## What is missing and what is resumed -/

/-- The part of a chunk that is not downloaded. -/
def Chunk.Missing (c : Chunk) (b : Nat) : Prop :=
  (c.done = false ∨ c.error = true) ∧ c.pos ≤ b ∧ b < c.limit

/-- The bytes of the file that are not downloaded. -/
def Download.Missing (d : Download) (b : Nat) : Prop :=
  b < d.size ∧ d.pos ≤ b ∧ (d.chunks = [] ∨ b < d.limit0 ∨ ∃ c ∈ d.chunks, c.Missing b)

/-- The bytes that the resumed job downloads. The main copy stops at the limit
of its part when there are chunks. -/
def Resume.Covers (r : Resume) (b : Nat) : Prop :=
  (r.start ≤ b ∧ (r.chunks = [] ∨ (b : Int) < r.limit0)) ∨ ∃ c ∈ r.chunks, c.1 ≤ b ∧ (b : Int) < c.2

/-- The status file keeps everything: no store is past the arrays, and every
missing byte will be downloaded. -/
def Resumable (d : Download) : Prop :=
  ∃ r, resume (saveStatus d) d.size = some r ∧ ∀ b, d.Missing b → r.Covers b

/-- The chunks that are written. -/
def Download.live (d : Download) : List Chunk := d.chunks.filter fun c => !c.done

/-- The chunks before the first one that has reached its limit. -/
def kept (cs : List Chunk) : List Chunk := cs.takeWhile fun c => c.pos < c.limit

/-- The array elements that are written: one for the main part, one for each
chunk kept, and one for the chunk after these. -/
def Download.slots (d : Download) : Nat :=
  1 + min ((kept d.live).length + 1) d.live.length

/-- The bytes of an entry of the file. -/
def entryLength (i pos limit : Nat) : Nat :=
  (decimal i).length + (decimal pos).length + 6 + ((decimal i).length + (decimal limit).length + 8)

/-- The bytes of the entries of `cs`, counted from `i`. -/
def entriesLength : Nat → List Chunk → Nat
  | _, [] => 0
  | i, c :: cs => entryLength i c.pos c.limit + entriesLength (i + 1) cs

/-- The bytes of the status file. -/
def Download.statusLength (d : Download) : Nat :=
  (decimal d.size).length + 6 +
    if d.chunks = [] then 1 + (decimal d.pos).length + 6
    else entryLength 0 d.pos d.limit0 + entriesLength 1 d.live

/-- The chunks that are not read back though something of them may be missing:
those from the first that has reached its limit on, and those that failed. -/
def Download.lost (d : Download) : List Chunk :=
  d.live.drop (kept d.live).length ++ d.chunks.filter fun c => c.done && c.error

/-- Every byte missing of a lost chunk is also in the main part or in a chunk
that is kept. -/
def Download.NothingLost (d : Download) : Prop :=
  ∀ c ∈ d.lost, ∀ b, c.pos ≤ b → b < c.limit → d.pos ≤ b → b < d.size →
    b < d.limit0 ∨ ∃ a ∈ kept d.live, a.pos ≤ b ∧ b < a.limit

/-! ## The reader on the writer's text -/

variable {d : Download} {lit : String} {i k n M fuel : Nat} {r : Bytes} {es : List Chunk}
  {l : List (Int × Int)}

theorem skipSpace_newline (r : Bytes) : skipSpace (ch '\n' :: r) = skipSpace r :=
  List.dropWhile_cons_of_pos (by decide)

theorem scanInt_skipSpace (s : Bytes) : scanInt (skipSpace s) = scanInt s := by
  unfold scanInt
  rw [skipSpace_idem]

theorem scanField_skipSpace (s : Bytes) : scanField lit (skipSpace s) = scanField lit s := by
  unfold scanField
  rw [scanInt_skipSpace]

/-- The white space that a directive skips makes no difference to the next one. -/
theorem loadLoop_skipSpace (s : Bytes) : loadLoop M fuel (skipSpace s) l = loadLoop M fuel s l := by
  cases fuel with
  | zero => rfl
  | succ fuel => rw [loadLoop, loadLoop, scanField_skipSpace]

theorem endsNumber_newline (r : Bytes) : EndsNumber (ch '\n' :: r) := by
  intro c hc
  cases hc
  decide

theorem scanField_line {c : UInt8} {w : Bytes} (hLit : bytes lit = c :: w)
    (hc : isDigit c = false) (i n : Nat) (r : Bytes) :
    scanField lit (decimal i ++ (bytes lit ++ (decimal n ++ [ch '\n'])) ++ r) =
      some ((i : Int), (n : Int), skipSpace r) := by
  have hEnds : EndsNumber (bytes lit ++ (decimal n ++ (ch '\n' :: r))) := by
    intro a ha
    rw [hLit] at ha
    cases ha
    exact hc
  have hText : decimal i ++ (bytes lit ++ (decimal n ++ [ch '\n'])) ++ r =
      decimal i ++ (bytes lit ++ (decimal n ++ (ch '\n' :: r))) := by
    simp only [List.append_assoc, List.cons_append, List.nil_append]
  unfold scanField
  rw [hText, scanInt_decimal i hEnds, Option.bind_some]
  dsimp only
  rw [scanLit_append, Option.bind_some, scanInt_decimal n (endsNumber_newline r), Option.map_some]
  dsimp only
  rw [skipSpace_newline]

theorem scanField_posLine (i n : Nat) (r : Bytes) :
    scanField ".pos=" (posLine i n ++ r) = some ((i : Int), (n : Int), skipSpace r) :=
  scanField_line rfl (by decide) i n r

theorem scanField_limitLine (i n : Nat) (r : Bytes) :
    scanField ".limit=" (limitLine i n ++ r) = some ((i : Int), (n : Int), skipSpace r) :=
  scanField_line rfl (by decide) i n r

theorem scanSize_sizeLine (n : Nat) (r : Bytes) :
    scanSize (sizeLine n ++ r) = some ((n : Int), skipSpace r) := by
  have hText : sizeLine n ++ r = bytes "size=" ++ (decimal n ++ (ch '\n' :: r)) := by
    unfold sizeLine
    simp only [List.append_assoc, List.cons_append, List.nil_append]
  unfold scanSize
  rw [hText, scanLit_append, Option.bind_some, scanInt_decimal n (endsNumber_newline r),
    Option.map_some]
  dsimp only
  rw [skipSpace_newline]

/-- The entries of chunks, counted from `k`. -/
def entryLines : Nat → List Chunk → Bytes
  | _, [] => []
  | k, c :: cs => posLine k c.pos ++ (limitLine k c.limit ++ entryLines (k + 1) cs)

theorem chunkLines_eq (i : Nat) (cs : List Chunk) :
    chunkLines i cs = entryLines (i + 1) (cs.filter fun c => !c.done) := by
  induction cs generalizing i with
  | nil => rfl
  | cons c cs ih =>
      rw [chunkLines]
      rcases hDone : c.done with _ | _
      · rw [if_neg (by nofun), List.filter_cons_of_pos (by rw [hDone]; rfl), entryLines, ih]
      · rw [if_pos rfl, List.filter_cons_of_neg (by rw [hDone]; nofun), ih]

/-- One entry of the text. -/
theorem loadLoop_entry (c : Chunk) (r : Bytes) :
    loadLoop M (fuel + 1) (posLine k c.pos ++ (limitLine k c.limit ++ r)) l =
      if M ≤ l.length then .overrun
      else if k ≠ l.length then .entries l
      else if 0 < l.length ∧ c.limit ≤ c.pos then loadLoop M fuel r l
      else loadLoop M fuel r (l ++ [((c.pos : Int), (c.limit : Int))]) := by
  rw [loadLoop, scanField_posLine]
  dsimp only
  rw [scanField_skipSpace, scanField_limitLine]
  dsimp only
  rw [loadLoop_skipSpace, loadLoop_skipSpace]
  split
  · rfl
  · by_cases hk : k = l.length
    · have hk' : ((k : Nat) : Int) = l.length := by rw [hk]
      rw [if_neg (not_not.mpr hk'), if_neg (not_not.mpr hk'), if_neg (not_not.mpr hk)]
      simp only [Int.ofNat_le]
    · have hk' : ((k : Nat) : Int) ≠ l.length := fun h => hk (Int.ofNat_inj.mp h)
      rw [if_pos hk', if_pos hk]

/-- After an entry that was skipped the numbers do not match any more. -/
theorem loadLoop_after_skip (hk : k ≠ l.length) (hRoom : l.length < M) :
    loadLoop M (fuel + 1) (entryLines k es) l = .entries l := by
  cases es with
  | nil => rfl
  | cons c es =>
      rw [entryLines, loadLoop_entry, if_neg (Nat.not_le.mpr hRoom), if_pos hk]

/-- A range as `LoadStatus` stores it. -/
def Chunk.range (c : Chunk) : Int × Int := (c.pos, c.limit)

/-- The reader gets the chunks before the first that has reached its limit, and
needs room for that one as well. -/
theorem loadLoop_lines (hNonempty : 0 < l.length) (hRoom : l.length ≤ M)
    (hFuel : es.length < fuel) :
    loadLoop M fuel (entryLines l.length es) l =
      if M < l.length + min ((kept es).length + 1) es.length then .overrun
      else .entries (l ++ (kept es).map Chunk.range) := by
  induction es generalizing l fuel with
  | nil =>
      have hNil : kept [] = [] := rfl
      rw [if_neg (by rw [List.length_nil, Nat.min_zero]; omega), hNil, List.map_nil,
        List.append_nil]
      cases fuel <;> rfl
  | cons c es ih =>
      rw [List.length_cons] at hFuel
      rcases fuel with _ | fuel
      · omega
      · rw [entryLines, loadLoop_entry, if_neg (not_not.mpr rfl)]
        by_cases hFull : M ≤ l.length
        · rw [if_pos hFull, if_pos (by rw [List.length_cons]; omega)]
        · rw [if_neg hFull]
          by_cases hReached : c.limit ≤ c.pos
          · have hKept : kept (c :: es) = [] :=
              List.takeWhile_cons_of_neg (by simpa using hReached)
            obtain ⟨m, rfl⟩ : ∃ m, fuel = m + 1 := ⟨fuel - 1, by omega⟩
            rw [if_pos ⟨hNonempty, hReached⟩,
              loadLoop_after_skip (by omega) (Nat.lt_of_not_le hFull), hKept,
              if_neg (by rw [List.length_nil, List.length_cons]; omega), List.map_nil,
              List.append_nil]
          · have hKept : kept (c :: es) = c :: kept es :=
              List.takeWhile_cons_of_pos (by simpa using Nat.lt_of_not_le hReached)
            have hLen : (l ++ [((c.pos : Int), (c.limit : Int))]).length = l.length + 1 := by simp
            have hRest := ih (l := l ++ [((c.pos : Int), (c.limit : Int))]) (by omega) (by omega)
              (show _ < fuel by omega)
            rw [if_neg (fun h => hReached h.2), ← hLen, hRest, hKept, hLen]
            have hSum : l.length + 1 + min ((kept es).length + 1) es.length =
                l.length + min ((c :: kept es).length + 1) (c :: es).length := by
              rw [List.length_cons, List.length_cons]
              omega
            rw [hSum, List.append_assoc]
            rfl

/-! ## The whole file -/

theorem length_entryLines (k : Nat) (es : List Chunk) :
    (entryLines k es).length = entriesLength k es := by
  induction es generalizing k with
  | nil => rfl
  | cons c es ih =>
      rw [entryLines, entriesLength, List.length_append, List.length_append, ih]
      simp only [posLine, limitLine, entryLength, List.length_append, List.length_singleton]
      rw [show (bytes ".pos=").length = 5 from rfl, show (bytes ".limit=").length = 7 from rfl]
      omega

theorem length_saveStatus (d : Download) : (saveStatus d).length = d.statusLength := by
  have hZero : (decimal 0).length = 1 := by decide
  have hSize : (bytes "size=").length = 5 := rfl
  have hPos : (bytes ".pos=").length = 5 := rfl
  have hLimit : (bytes ".limit=").length = 7 := rfl
  unfold saveStatus Download.statusLength
  rw [List.length_append, List.length_append]
  split
  · simp only [sizeLine, posLine, List.length_append, List.length_singleton, List.length_nil]
    omega
  · rw [List.length_append, chunkLines_eq, length_entryLines]
    simp only [sizeLine, posLine, limitLine, entryLength, Download.live, List.length_append,
      List.length_singleton, Nat.zero_add]
    omega

theorem length_live_lt (d : Download) : d.live.length < d.statusLength := by
  have hLe : ∀ (k : Nat) (es : List Chunk), es.length ≤ entriesLength k es := by
    intro k es
    induction es generalizing k with
    | nil => exact Nat.le_refl 0
    | cons c es ih =>
        have hRest := ih (k + 1)
        rw [List.length_cons, entriesLength, entryLength]
        omega
  have hLive := hLe 1 d.live
  unfold Download.statusLength
  split
  · rename_i hNil
    have hNone : d.live.length = 0 := by
      unfold Download.live
      rw [hNil]
      rfl
    omega
  · omega

/-- What the job continues with. -/
def Download.resumed (d : Download) : Resume :=
  if d.chunks = [] then ⟨d.pos, 0, []⟩ else ⟨d.pos, d.limit0, (kept d.live).map Chunk.range⟩

theorem loadStatus0_saveStatus (d : Download) : loadStatus0 (saveStatus d) = d.pos := by
  unfold loadStatus0 saveStatus
  rw [scanSize_sizeLine]
  dsimp only
  rw [scanField_skipSpace, scanField_posLine]
  rfl

theorem loadLoop_file (d : Download) (hFuel : d.live.length < fuel) :
    loadLoop M (fuel + 1) (posLine 0 d.pos ++ (limitLine 0 d.limit0 ++ entryLines 1 d.live)) [] =
      if M < d.slots then .overrun
      else .entries (((d.pos : Int), (d.limit0 : Int)) :: (kept d.live).map Chunk.range) := by
  have hEntry : loadLoop M (fuel + 1)
      (posLine 0 d.pos ++ (limitLine 0 d.limit0 ++ entryLines 1 d.live)) [] = _ :=
    loadLoop_entry ⟨d.pos, d.limit0, false, false⟩ (entryLines 1 d.live)
  rw [List.length_nil] at hEntry
  rw [hEntry]
  by_cases hRoom : M ≤ 0
  · have hSlots : M < d.slots := by
      unfold Download.slots
      omega
    rw [if_pos hRoom, if_pos hSlots]
  · have hLines := loadLoop_lines (M := M) (l := [((d.pos : Int), (d.limit0 : Int))])
      Nat.one_pos (Nat.lt_of_not_le hRoom) hFuel
    rw [if_neg hRoom, if_neg (fun h => h rfl), if_neg (fun h => Nat.lt_irrefl 0 h.1)]
    exact hLines

theorem loadStatus_saveStatus (d : Download) :
    loadStatus (saveStatus d) d.size =
      if d.statusLength / 20 < d.slots then .overrun
      else if d.chunks = [] then .abandoned
      else .entries (((d.pos : Int), (d.limit0 : Int)) :: (kept d.live).map Chunk.range) := by
  unfold loadStatus
  rw [length_saveStatus]
  unfold saveStatus
  rw [scanSize_sizeLine]
  dsimp only
  rw [loadLoop_skipSpace]
  have hFuel := length_live_lt d
  generalize d.statusLength / 20 = M
  by_cases hNone : d.chunks = []
  · have hSlots : d.slots = 1 := by
      unfold Download.slots Download.live
      rw [hNone]
      rfl
    have hFirst : ¬ ((0 : Nat) : Int) ≠ (([] : List (Int × Int)).length : Int) := fun h => h rfl
    rw [if_pos hNone, if_pos hNone, hSlots, loadLoop, scanField_posLine]
    dsimp only
    by_cases hRoom : M ≤ 0
    · rw [if_pos (show M ≤ [].length from hRoom), if_pos (by omega)]
    · rw [if_neg (show ¬ M ≤ [].length from hRoom), if_neg hFirst, if_neg (by omega)]
      rfl
  · rw [if_neg hNone, if_neg hNone, chunkLines_eq, Nat.zero_add]
    have hFile := loadLoop_file (M := M) d hFuel
    unfold Download.live at hFile
    rw [hFile]
    split_ifs
    · rfl
    · dsimp only
      unfold grown
      rw [if_neg (Int.lt_irrefl d.size)]
      rfl

theorem resume_saveStatus (d : Download) :
    resume (saveStatus d) d.size =
      if d.statusLength / 20 < d.slots then none else some d.resumed := by
  unfold resume Download.resumed
  rw [loadStatus_saveStatus]
  by_cases hRoom : d.statusLength / 20 < d.slots
  · rw [if_pos hRoom, if_pos hRoom]
  · rw [if_neg hRoom, if_neg hRoom]
    by_cases hNone : d.chunks = []
    · rw [if_pos hNone, if_pos hNone, loadStatus0_saveStatus]
    · rw [if_neg hNone, if_neg hNone]

/-! ## When nothing is lost -/

theorem covers_resumed_iff (b : Nat) :
    d.resumed.Covers b ↔ (d.pos ≤ b ∧ (kept d.live = [] ∨ b < d.limit0))
      ∨ ∃ a ∈ kept d.live, a.pos ≤ b ∧ b < a.limit := by
  by_cases hNone : d.chunks = []
  · have hKept : kept d.live = [] := by
      unfold Download.live
      rw [hNone]
      rfl
    unfold Download.resumed Resume.Covers
    rw [if_pos hNone, hKept]
    simp
  · unfold Download.resumed Resume.Covers
    rw [if_neg hNone]
    simp [Chunk.range]

/-- A chunk with something missing is kept or lost. -/
theorem kept_or_lost {c : Chunk} {b : Nat} (hc : c ∈ d.chunks) (hMissing : c.Missing b) :
    c ∈ kept d.live ∨ c ∈ d.lost := by
  rcases hDone : c.done with _ | _
  · have hLive : c ∈ d.live := List.mem_filter.mpr ⟨hc, by rw [hDone]; rfl⟩
    have hSplit : kept d.live ++ d.live.drop (kept d.live).length = d.live := by
      have hTake : kept d.live = d.live.take (kept d.live).length :=
        List.prefix_iff_eq_take.mp (List.takeWhile_prefix _)
      have hWhole := List.take_append_drop (kept d.live).length d.live
      rwa [← hTake] at hWhole
    rw [← hSplit, List.mem_append] at hLive
    rcases hLive with hKept | hDropped
    · exact Or.inl hKept
    · exact Or.inr (List.mem_append_left _ hDropped)
  · have hError : c.error = true := by
      rcases hMissing.1 with hLive | hError
      · rw [hDone] at hLive
        cases hLive
      · exact hError
    exact Or.inr (List.mem_append_right _ (List.mem_filter.mpr ⟨hc, by rw [hDone, hError]; rfl⟩))

theorem mem_chunks_of_lost {c : Chunk} (hc : c ∈ d.lost) :
    c ∈ d.chunks ∧ (c.done = false ∨ c.error = true) := by
  rcases List.mem_append.mp hc with hDropped | hFailed
  · have hLive := List.mem_filter.mp (List.mem_of_mem_drop hDropped)
    refine ⟨hLive.1, Or.inl ?_⟩
    simpa using hLive.2
  · have hBoth := List.mem_filter.mp hFailed
    refine ⟨hBoth.1, Or.inr ?_⟩
    have hTrue : c.done = true ∧ c.error = true := by simpa using hBoth.2
    exact hTrue.2

theorem covers_iff_nothingLost :
    (∀ b, d.Missing b → d.resumed.Covers b) ↔ kept d.live = [] ∨ d.NothingLost := by
  constructor
  · intro hAll
    by_cases hKept : kept d.live = []
    · exact Or.inl hKept
    · right
      intro c hc b hPos hLimit hMain hSize
      rcases mem_chunks_of_lost hc with ⟨hMem, hWhy⟩
      have hCovered := hAll b ⟨hSize, hMain, Or.inr (Or.inr ⟨c, hMem, hWhy, hPos, hLimit⟩)⟩
      rcases (covers_resumed_iff b).mp hCovered with ⟨-, hNil | hBelow⟩ | hOther
      · exact absurd hNil hKept
      · exact Or.inl hBelow
      · exact Or.inr hOther
  · rintro hLoss b ⟨hSize, hMain, hMissing⟩
    apply (covers_resumed_iff b).mpr
    rcases hLoss with hKept | hNothing
    · exact Or.inl ⟨hMain, Or.inl hKept⟩
    · rcases hMissing with hNone | hBelow | ⟨c, hc, hMiss⟩
      · have hKept : kept d.live = [] := by
          unfold Download.live
          rw [hNone]
          rfl
        exact Or.inl ⟨hMain, Or.inl hKept⟩
      · exact Or.inl ⟨hMain, Or.inr hBelow⟩
      · rcases kept_or_lost hc hMiss with hKept | hLost
        · exact Or.inr ⟨c, hKept, hMiss.2⟩
        · rcases hNothing c hLost b hMiss.2.1 hMiss.2.2 hMain hSize with hBelow | hOther
          · exact Or.inl ⟨hMain, Or.inr hBelow⟩
          · exact Or.inr hOther

/-- The status file keeps every missing byte exactly when the arrays have room
and the chunks that are not read back have nothing of their own to download. -/
theorem resumable_iff (d : Download) :
    Resumable d ↔ d.slots ≤ d.statusLength / 20 ∧ (kept d.live = [] ∨ d.NothingLost) := by
  unfold Resumable
  rw [resume_saveStatus, ← covers_iff_nothingLost]
  constructor
  · rintro ⟨r, hResume, hAll⟩
    split at hResume
    · cases hResume
    · cases hResume
      exact ⟨by omega, hAll⟩
  · rintro ⟨hRoom, hAll⟩
    rw [if_neg (by omega)]
    exact ⟨_, rfl, hAll⟩

/-- The second of three chunks has reached its limit, so the third is lost. -/
theorem not_resumable :
    ¬ Resumable ⟨4000, 10, 1000, [⟨1000, 2000, false, false⟩, ⟨3000, 3000, false, false⟩,
      ⟨3100, 4000, false, false⟩]⟩ := by
  rintro ⟨r, hResume, hAll⟩
  have hRead : resume (saveStatus ⟨4000, 10, 1000, [⟨1000, 2000, false, false⟩,
      ⟨3000, 3000, false, false⟩, ⟨3100, 4000, false, false⟩]⟩) 4000 =
      some ⟨10, 1000, [(1000, 2000)]⟩ := by decide
  have hEq : (⟨10, 1000, [(1000, 2000)]⟩ : Resume) = r := Option.some.inj (hRead.symm.trans hResume)
  subst hEq
  have hMissing : Download.Missing ⟨4000, 10, 1000, [⟨1000, 2000, false, false⟩,
      ⟨3000, 3000, false, false⟩, ⟨3100, 4000, false, false⟩]⟩ 3500 := by
    simp [Download.Missing, Chunk.Missing]
  have hCovered := hAll 3500 hMissing
  simp [Resume.Covers] at hCovered

end Lftp.Ports.PgetStatus
