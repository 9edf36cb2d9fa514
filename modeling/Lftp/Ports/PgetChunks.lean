import Mathlib.Algebra.Group.Nat.Defs
import Mathlib.Algebra.Group.Int.Defs
import Lftp.Verified.Outcome
import Lftp.Verified.Percent
import Mathlib.Data.Int.Order.Basic

/-!
# How `pget` splits a file

`pgetJob::InitChunks`, with the setting `pget:min-chunk-size` as text, as `UNumberValidate` admits
it and `ResValue::to_number` reads it. The arithmetic is that of `long long`; an overflow, a
division by zero, a number of chunks that is no `int` and the assertion are faults.

* `InitChunks_eq` says what the function does, by the size of a chunk.
* `InitChunks_splits_iff`: the remainder of the division must be less than the size of a chunk, or
  the minimum must decide.
-/

namespace Lftp.Ports.PgetChunks

open Lftp.Verified

inductive Fault
  | overflow
  | divisionByZero
  | assertion
  deriving DecidableEq

/-! ## The setting -/

def numeral (base : Nat) (digits : Bytes) : Nat :=
  digits.foldl (fun n c => base * n + hexVal c) 0

/-- `isdigit` for octal numbers. -/
def isOctal (c : UInt8) : Bool := isDigit c && c.toNat < 56

/-- `strtoull(v,&end,0)` for a text that begins with a digit: the number, before it is cut to its
type, and the text at `end`. -/
def scanNumber (v : Bytes) : Nat × Bytes :=
  if v.head? = some (ch '0') then
    let hex := v.drop 2
    if (v.getD 1 0 = ch 'x' ∨ v.getD 1 0 = ch 'X') ∧ isXDigit (v.getD 2 0) then
      (numeral 16 (hex.takeWhile isXDigit), hex.dropWhile isXDigit)
    else (numeral 8 (v.takeWhile isOctal), v.dropWhile isOctal)
  else (numeral 10 (v.takeWhile isDigit), v.dropWhile isDigit)

def power_letter : Bytes :=
  [0, ch 'K', ch 'M', ch 'G', ch 'T', ch 'P', ch 'E', ch 'Z', ch 'Y']

def toupper (c : UInt8) : UInt8 := if ch 'a' ≤ c ∧ c ≤ ch 'z' then c - 32 else c

/-- The loop of `get_power_multiplier`, in `unsigned long long`. -/
def powerLoop (p : UInt8) : Bytes → Nat → Nat
  | [], _ => 0
  | letter :: scan, mul => if p = letter then mul else powerLoop p scan (mul * 1024 % 2 ^ 64)

/-- `get_power_multiplier`. -/
def get_power_multiplier (p : UInt8) : Nat := powerLoop (toupper p) power_letter 1

/-- The number of a setting and its multiplier. -/
def number (v : Bytes) : Nat := (scanNumber v).1

def multiplier (v : Bytes) : Nat := get_power_multiplier ((scanNumber v).2.getD 0 0)

/-- `ResMgr::UNumberValidate`: the error. -/
def UNumberValidate (value : Bytes) : Option Bytes :=
  let stop := (scanNumber value).2
  let m := multiplier value
  if ¬ isDigit (value.getD 0 0) ∨ value.length = stop.length ∨ m = 0 ∨
      stop.getD (if m > 1 then 1 else 0) 0 ≠ 0 then
    some (bytes "invalid unsigned number")
  else none

/-- `ResValue::to_number`; `strtoll` stops at the largest number. -/
def to_number (min max : Int) : Option Bytes → Except Fault Int
  | none => .ok 0
  | some s => do
    let v : Int := Nat.min (number s) (2 ^ 63 - 1)
    let m : Int := multiplier s
    let vm := v * m
    if vm ≥ 2 ^ 63 then .error .overflow
    else if m = 0 then .error .divisionByZero
    else if vm.tdiv m ≠ v then .ok (if v > 0 then max else min)
    else if vm > max then .ok max
    else if vm < min then .ok min
    else .ok vm

/-! ## The chunks -/

/-- A `ChunkXfer`. -/
structure Chunk where
  start : Int
  limit : Int
  suspended : Bool
  deriving DecidableEq

structure Layout where
  start0 : Int
  limit0 : Int
  chunks : List Chunk
  ends_pending : Bool
  deriving DecidableEq

/-- A result in `off_t`. -/
def off (x : Int) : Except Fault Int :=
  if -2 ^ 63 ≤ x ∧ x < 2 ^ 63 then .ok x else .error .overflow

/-- The loop that makes `n` chunks, and `curr_offs` after it. -/
def newChunks (chunk_size : Int) : Nat → Int → Except Fault (List Chunk × Int)
  | 0, curr_offs => .ok ([], curr_offs)
  | n + 1, curr_offs => do
    let limit ← off (curr_offs + chunk_size)
    let (chunks, last) ← newChunks chunk_size n limit
    .ok (⟨curr_offs, limit, false⟩ :: chunks, last)

/-- The first `n` chunks are suspended. -/
def suspend (n : Nat) (chunks : List Chunk) : List Chunk :=
  (chunks.take n).map (fun c => { c with suspended := true }) ++ chunks.drop n

/-- `pgetJob::InitChunks`: what is set, unless the file isn't split. -/
def InitChunks (max_chunks : Int) (setting : Option Bytes) (priority_ends : Bool)
    (offset size : Int) : Except Fault (Option Layout) := do
  let left ← off (size - offset)
  let chunk_size := left.tdiv max_chunks
  let min_chunk_size ← to_number (-2 ^ 31) (2 ^ 31 - 1) setting
  let chunk_size := if chunk_size < min_chunk_size then min_chunk_size else chunk_size
  if chunk_size = 0 then .error .divisionByZero
  else
    let num_of_chunks := left.tdiv chunk_size - 1
    if num_of_chunks ≥ 2 ^ 31 then .error .overflow
    else if num_of_chunks < 1 then .ok none
    else do
      let part ← off (chunk_size * num_of_chunks)
      let limit0 ← off (size - part)
      let (chunks, curr_offs) ← newChunks chunk_size num_of_chunks.toNat limit0
      if curr_offs ≠ size then .error .assertion
      else if priority_ends ∧ num_of_chunks ≥ 2 then
        .ok (some ⟨0, limit0, suspend (num_of_chunks.toNat - 1) chunks, true⟩)
      else .ok (some ⟨0, limit0, chunks, false⟩)

/-! ## What is claimed of the layout -/

/-- Chunks that follow each other from `lo` to `hi`. -/
def Follow : Int → List Chunk → Int → Prop
  | lo, [], hi => lo = hi
  | lo, c :: chunks, hi => c.start = lo ∧ Follow c.limit chunks hi

/-- A good split of `[offset, size)`. -/
structure Splits (max_chunks offset size : Int) (l : Layout) : Prop where
  count : l.chunks.length ≤ max_chunks - 1
  nonempty : ∀ c ∈ l.chunks, c.start < c.limit
  contiguous : Follow l.limit0 l.chunks size
  disjoint : l.chunks.Pairwise fun a b => a.limit ≤ b.start
  cover : ∀ x, offset ≤ x → x < size →
    (x < l.limit0 ↔ ¬ ∃ c ∈ l.chunks, c.start ≤ x ∧ x < c.limit)
  main : offset < l.limit0

/-- No fault, and a good split if there is one. -/
def Good (max_chunks offset size : Int) : Except Fault (Option Layout) → Prop
  | .ok none => True
  | .ok (some l) => Splits max_chunks offset size l
  | .error _ => False

/-- The number that an admitted setting stands for, before it is cut to an `int`. -/
def settingValue (v : Bytes) : Nat := Nat.min (number v) (2 ^ 63 - 1) * multiplier v

/-- The smallest size of a chunk. -/
def minChunkSize (v : Bytes) : Nat := Nat.min (settingValue v) (2 ^ 31 - 1)

/-! ## Chunks in a row -/

section Follow

variable {lo hi : Int} {chunks : List Chunk}

theorem Follow.le (h : Follow lo chunks hi) (hSome : ∀ c ∈ chunks, c.start < c.limit) :
    lo ≤ hi := by
  induction chunks generalizing lo with
  | nil => exact le_of_eq h
  | cons c chunks ih =>
      rw [List.forall_mem_cons] at hSome
      have hRest := ih h.2 hSome.2
      have hHead := h.1
      omega

/-- They have the bytes from `lo` to `hi`. -/
theorem Follow.cover (h : Follow lo chunks hi) (hSome : ∀ c ∈ chunks, c.start < c.limit) (x : Int) :
    (∃ c ∈ chunks, c.start ≤ x ∧ x < c.limit) ↔ lo ≤ x ∧ x < hi := by
  induction chunks generalizing lo with
  | nil =>
      have hEq : lo = hi := h
      simp only [List.not_mem_nil, false_and, exists_false, false_iff]
      omega
  | cons c chunks ih =>
      rw [List.forall_mem_cons] at hSome
      have hRest := ih h.2 hSome.2
      have hLe := h.2.le hSome.2
      have hHead := h.1
      simp only [List.mem_cons, exists_eq_or_imp, hRest]
      omega

/-- None begins before another ends. -/
theorem Follow.disjoint (h : Follow lo chunks hi) (hSome : ∀ c ∈ chunks, c.start < c.limit) :
    chunks.Pairwise fun a b => a.limit ≤ b.start := by
  induction chunks generalizing lo with
  | nil => exact List.Pairwise.nil
  | cons c chunks ih =>
      rw [List.forall_mem_cons] at hSome
      refine List.Pairwise.cons (fun b hb => ?_) (ih h.2 hSome.2)
      have hCover := (h.2.cover hSome.2 b.start).mp ⟨b, hb, le_rfl, hSome.2 b hb⟩
      exact hCover.1

theorem suspend_follow (n : Nat) (h : Follow lo chunks hi) : Follow lo (suspend n chunks) hi := by
  induction n generalizing lo chunks with
  | zero => exact h
  | succ n ih =>
      cases chunks with
      | nil => exact h
      | cons c chunks => exact ⟨h.1, ih h.2⟩

theorem suspend_nonempty (n : Nat) (hSome : ∀ c ∈ chunks, c.start < c.limit) :
    ∀ c ∈ suspend n chunks, c.start < c.limit := by
  intro c hc
  rcases List.mem_append.mp hc with hc | hc
  · obtain ⟨d, hd, rfl⟩ := List.mem_map.mp hc
    exact hSome d (List.mem_of_mem_take hd)
  · exact hSome c (List.mem_of_mem_drop hc)

theorem length_suspend (n : Nat) (chunks : List Chunk) :
    (suspend n chunks).length = chunks.length := by
  rw [suspend, List.length_append, List.length_map, List.length_take, List.length_drop]
  omega

theorem splits_of_follow {max_chunks offset : Int} {l : Layout} (h : Follow l.limit0 l.chunks hi)
    (hSome : ∀ c ∈ l.chunks, c.start < c.limit) (hCount : l.chunks.length ≤ max_chunks - 1)
    (hMain : offset < l.limit0) : Splits max_chunks offset hi l := by
  refine ⟨hCount, hSome, h, h.disjoint hSome, fun x hLo hHi => ?_, hMain⟩
  rw [h.cover hSome]
  omega

end Follow

theorem off_of {x : Int} (hLo : 0 ≤ x) (hHi : x < 2 ^ 63) : off x = .ok x :=
  if_pos ⟨by omega, hHi⟩

/-- What the loop makes. -/
theorem newChunks_spec {chunk_size : Int} (h : 0 < chunk_size) (n : Nat) (curr_offs : Int)
    (hLo : 0 ≤ curr_offs) (hHi : curr_offs + chunk_size * n < 2 ^ 63) :
    ∃ chunks, newChunks chunk_size n curr_offs = .ok (chunks, curr_offs + chunk_size * n) ∧
      chunks.length = n ∧ Follow curr_offs chunks (curr_offs + chunk_size * n) ∧
      ∀ c ∈ chunks, c.start < c.limit := by
  induction n generalizing curr_offs with
  | zero =>
      have hEnd : curr_offs + chunk_size * (0 : Nat) = curr_offs := by simp
      rw [hEnd]
      exact ⟨[], rfl, rfl, rfl, fun c hc => nomatch hc⟩
  | succ n ih =>
      have hEnd : curr_offs + chunk_size * (n + 1 : Nat)
          = curr_offs + chunk_size + chunk_size * n := by
        rw [Int.natCast_succ, Int.mul_add]
        omega
      have hRest : 0 ≤ chunk_size * n := Int.mul_nonneg (le_of_lt h) (Int.natCast_nonneg n)
      rw [hEnd] at hHi ⊢
      obtain ⟨chunks, hRun, hLength, hFollow, hSome⟩ := ih _ (by omega) hHi
      refine ⟨⟨curr_offs, curr_offs + chunk_size, false⟩ :: chunks, ?_,
        congrArg (· + 1) hLength, ⟨rfl, hFollow⟩, ?_⟩
      · rw [newChunks, off_of (by omega) (by omega), ok_bind, hRun]
        rfl
      · refine List.forall_mem_cons.mpr ⟨?_, hSome⟩
        show curr_offs < curr_offs + chunk_size
        omega

/-! ## The setting -/

theorem multiplier_ne_zero {v : Bytes} (h : UNumberValidate v = none) : multiplier v ≠ 0 := by
  intro hZero
  simp [UNumberValidate, hZero] at h

/-- An admitted setting is read, if its number fits. -/
theorem to_number_eq {v : Bytes} (h : UNumberValidate v = none) :
    to_number (-2 ^ 31) (2 ^ 31 - 1) (some v)
      = if settingValue v < 2 ^ 63 then .ok (minChunkSize v : Int) else .error .overflow := by
  have hPos := Nat.pos_of_ne_zero (multiplier_ne_zero h)
  have hValue : ((Nat.min (number v) (2 ^ 63 - 1) : Nat) : Int) * (multiplier v : Int)
      = (settingValue v : Int) := by
    rw [settingValue, Int.natCast_mul]
  rw [to_number]
  simp only [hValue]
  by_cases hFits : settingValue v < 2 ^ 63
  · have hDiv : ((settingValue v : Int)).tdiv (multiplier v)
        = (Nat.min (number v) (2 ^ 63 - 1) : Nat) := by
      rw [← hValue, Int.mul_tdiv_cancel _ (by omega)]
    rw [if_neg (by omega), if_neg (by omega), if_neg (by simp [hDiv]), if_pos hFits]
    by_cases hBig : 2 ^ 31 - 1 < settingValue v
    · have hMin : minChunkSize v = 2 ^ 31 - 1 := Nat.min_eq_right (by omega)
      rw [if_pos (by omega), hMin]
      rfl
    · have hMin : minChunkSize v = settingValue v := Nat.min_eq_left (by omega)
      rw [if_neg (by omega), if_neg (by omega), hMin]
  · rw [if_pos (by omega), if_neg hFits]

/-! ## The split -/

section Split

variable {mc m offset size : Int} {setting : Option Bytes}

/-- The size of a chunk. -/
def chunkSize (mc m offset size : Int) : Int := max ((size - offset) / mc) m

/-- The function, after the setting is read. -/
theorem InitChunks_eq (hRead : to_number (-2 ^ 31) (2 ^ 31 - 1) setting = .ok m)
    (hMax : 2 ≤ mc) (hStart : 0 ≤ offset) (hOffset : offset ≤ size) (hLimit : size < 2 ^ 63)
    (hMin : 0 ≤ m) (ends : Bool) :
    let cs := chunkSize mc m offset size
    let n := (size - offset) / cs - 1
    (cs = 0 → InitChunks mc setting ends offset size = .error .divisionByZero) ∧
    (cs ≠ 0 → n ≥ 2 ^ 31 → InitChunks mc setting ends offset size = .error .overflow) ∧
    (cs ≠ 0 → n < 1 → InitChunks mc setting ends offset size = .ok none) ∧
    (cs ≠ 0 → 1 ≤ n → n < 2 ^ 31 → ∃ l, InitChunks mc setting ends offset size = .ok (some l) ∧
      l.limit0 = size - cs * n ∧ l.chunks.length = n ∧ Follow l.limit0 l.chunks size ∧
      ∀ c ∈ l.chunks, c.start < c.limit) := by
  intro cs n
  have hQuotient : (size - offset).tdiv mc = (size - offset) / mc :=
    Int.tdiv_eq_ediv_of_nonneg (by omega)
  have hQ : 0 ≤ (size - offset) / mc := Int.ediv_nonneg (by omega) (by omega)
  have hSize : (if (size - offset).tdiv mc < m then m else (size - offset).tdiv mc) = cs := by
    show _ = max ((size - offset) / mc) m
    rw [hQuotient]
    split <;> omega
  have hCs : 0 ≤ cs := by
    show 0 ≤ max ((size - offset) / mc) m
    omega
  have hNum : (size - offset).tdiv cs - 1 = n := by
    rw [Int.tdiv_eq_ediv_of_nonneg (by omega)]
  unfold InitChunks
  rw [off_of (by omega) (by omega)]
  simp only [hRead, ok_bind, hSize, hNum]
  refine ⟨fun h => by rw [if_pos h], fun h hBig => by rw [if_neg h, if_pos hBig],
    fun h hFew => by rw [if_neg h, if_neg (by omega), if_pos hFew], fun h hOne hFits => ?_⟩
  -- the extra chunks are less than what is left
  have hPart : 0 ≤ cs * n ∧ cs * n + cs ≤ size - offset := by
    have hMul := Int.ediv_mul_le (size - offset) h
    refine ⟨Int.mul_nonneg hCs (by omega), ?_⟩
    show cs * ((size - offset) / cs - 1) + cs ≤ size - offset
    rw [Int.mul_sub, Int.mul_one, Int.mul_comm]
    omega
  have hPos : 0 < cs := by omega
  have hNat : (n.toNat : Int) = n := Int.toNat_of_nonneg (by omega)
  obtain ⟨chunks, hRun, hLength, hFollow, hSome⟩ :=
    newChunks_spec hPos n.toNat (size - cs * n)
      (by omega) (by rw [hNat]; omega)
  have hCount : (chunks.length : Int) = n := by
    rw [hLength]
    exact hNat
  have hEnd : size - cs * n + cs * n.toNat = size := by
    rw [hNat]
    omega
  rw [hEnd] at hFollow hRun
  rw [if_neg h, if_neg (by omega), if_neg (by omega), off_of (by omega) (by omega), ok_bind,
    off_of (by omega) (by omega), ok_bind, hRun, ok_bind, if_neg (not_not_intro rfl)]
  split
  · refine ⟨_, rfl, rfl, ?_, suspend_follow _ hFollow, suspend_nonempty _ hSome⟩
    rw [length_suspend]
    exact hCount
  · exact ⟨_, rfl, rfl, hCount, hFollow, hSome⟩

/-- At most `mc - 1` chunks are good, and more are not. -/
theorem good_iff_few (hRead : to_number (-2 ^ 31) (2 ^ 31 - 1) setting = .ok m) (hMax : 2 ≤ mc)
    (hInt : mc < 2 ^ 31) (hStart : 0 ≤ offset) (hOffset : offset ≤ size) (hLimit : size < 2 ^ 63)
    (hMin : 0 ≤ m) (ends : Bool) :
    Good mc offset size (InitChunks mc setting ends offset size) ↔
      chunkSize mc m offset size ≠ 0 ∧ (size - offset) / chunkSize mc m offset size ≤ mc := by
  obtain ⟨hZero, hBig, hFew, hSplit⟩ := InitChunks_eq hRead hMax hStart hOffset hLimit hMin ends
  have hSize : 0 ≤ chunkSize mc m offset size := le_trans hMin (le_max_right _ _)
  generalize chunkSize mc m offset size = cs at *
  by_cases hCs : cs = 0
  · rw [hZero hCs]
    exact iff_of_false id fun h => h.1 hCs
  · have hMul := Int.ediv_mul_le (size - offset) hCs
    rw [and_iff_right hCs]
    generalize hD : (size - offset) / cs = d at *
    by_cases hOne : d - 1 < 1
    · rw [hFew hCs hOne]
      exact iff_of_true trivial (by omega)
    · by_cases hOver : d - 1 ≥ 2 ^ 31
      · rw [hBig hCs hOver]
        exact iff_of_false id (by omega)
      · obtain ⟨l, hRun, hLimit, hCount, hFollow, hSome⟩ := hSplit hCs (by omega) (by omega)
        rw [hRun]
        refine ⟨fun h => ?_, fun h => splits_of_follow hFollow hSome (by omega) ?_⟩
        · have hClaim := h.count
          omega
        · rw [hLimit, Int.mul_sub, Int.mul_one, Int.mul_comm]
          omega

/-- The division leaves less than a chunk, or the minimum decides. -/
theorem good_iff (hRead : to_number (-2 ^ 31) (2 ^ 31 - 1) setting = .ok m) (hMax : 2 ≤ mc)
    (hInt : mc < 2 ^ 31) (hStart : 0 ≤ offset) (hOffset : offset ≤ size) (hLimit : size < 2 ^ 63)
    (hMin : 0 ≤ m) (ends : Bool) :
    Good mc offset size (InitChunks mc setting ends offset size) ↔
      (size - offset) / mc < m ∨ (size - offset) % mc < (size - offset) / mc := by
  rw [good_iff_few hRead hMax hInt hStart hOffset hLimit hMin]
  have hDiv := Int.mul_ediv_add_emod (size - offset) mc
  have hMod := Int.emod_lt_of_pos (size - offset) (show 0 < mc by omega)
  have hMod' := Int.emod_nonneg (size - offset) (show mc ≠ 0 by omega)
  have hQ : 0 ≤ (size - offset) / mc := Int.ediv_nonneg (by omega) (by omega)
  unfold chunkSize
  generalize (size - offset) / mc = q at *
  generalize (size - offset) % mc = r at *
  rw [← hDiv]
  by_cases hDecides : q < m
  · -- fewer chunks of the smallest size go into the file
    have hFits : mc * q + r < mc * m := by
      have hNext : mc * (q + 1) ≤ mc * m := Int.mul_le_mul_of_nonneg_left (by omega) (by omega)
      rw [Int.mul_add, Int.mul_one] at hNext
      omega
    rw [max_eq_right (by omega)]
    have hLt := Int.ediv_lt_of_lt_mul (show 0 < m by omega) hFits
    omega
  · rw [max_eq_left (by omega)]
    by_cases hNone : q = 0
    · omega
    · -- the remainder makes chunks of its own
      have hSplit : (mc * q + r) / q = mc + r / q := by
        rw [Int.mul_comm, Int.add_comm, Int.add_mul_ediv_left _ _ hNone, Int.add_comm]
      have hRest : r / q ≤ 0 ↔ r < q := by
        rw [← Int.lt_add_one_iff, Int.zero_add, Int.ediv_lt_iff_lt_mul (by omega), Int.one_mul]
      rw [hSplit]
      omega

end Split

/-- When `pget` splits a file as it should. -/
theorem InitChunks_splits_iff {max_chunks offset size : Int} {setting : Bytes} (ends : Bool)
    (hSetting : UNumberValidate setting = none) (hMax : 2 ≤ max_chunks)
    (hInt : max_chunks < 2 ^ 31) (hStart : 0 ≤ offset) (hOffset : offset ≤ size)
    (hSize : size < 2 ^ 63) :
    Good max_chunks offset size (InitChunks max_chunks (some setting) ends offset size) ↔
      settingValue setting < 2 ^ 63 ∧
        ((size - offset) / max_chunks < minChunkSize setting ∨
          (size - offset) % max_chunks < (size - offset) / max_chunks) := by
  have hRead := to_number_eq hSetting
  by_cases hFits : settingValue setting < 2 ^ 63
  · rw [if_pos hFits] at hRead
    rw [good_iff hRead hMax hInt hStart hOffset hSize (Int.natCast_nonneg _),
      and_iff_right hFits]
  · rw [if_neg hFits] at hRead
    have hFault : InitChunks max_chunks (some setting) ends offset size = .error .overflow := by
      unfold InitChunks
      rw [off_of (by omega) (by omega), hRead]
      rfl
    rw [hFault]
    exact iff_of_false id fun h => hFits h.1

theorem InitChunks_splits_million :
    Good 5 0 (10 ^ 7) (InitChunks 5 (some (bytes "1M")) true 0 (10 ^ 7)) ↔
      settingValue (bytes "1M") < 2 ^ 63 ∧
        ((10 ^ 7 - 0) / 5 < (minChunkSize (bytes "1M") : Int) ∨
          ((10 ^ 7 - 0) % 5 : Int) < (10 ^ 7 - 0) / 5) :=
  InitChunks_splits_iff  true (by decide) (by decide) (by decide) (by decide) (by decide)
    (by decide)

/-- Seven bytes for four connections become seven chunks, and three a division by zero. -/
theorem not_InitChunks_splits :
    (∃ l, InitChunks 4 (some (bytes "0")) false 0 7 = .ok (some l) ∧ l.chunks.length = 6) ∧
      InitChunks 4 (some (bytes "0")) false 0 3 = .error .divisionByZero ∧
      ¬ Good 4 0 7 (InitChunks 4 (some (bytes "0")) false 0 7) ∧
      ¬ Good 4 0 3 (InitChunks 4 (some (bytes "0")) false 0 3) := by
  have hSeven : InitChunks 4 (some (bytes "0")) false 0 7 = .ok (some ⟨0, 1,
      [⟨1, 2, false⟩, ⟨2, 3, false⟩, ⟨3, 4, false⟩, ⟨4, 5, false⟩, ⟨5, 6, false⟩, ⟨6, 7, false⟩],
      false⟩) := by decide +kernel
  have hThree : InitChunks 4 (some (bytes "0")) false 0 3 = .error .divisionByZero := by
    decide +kernel
  refine ⟨⟨_, hSeven, rfl⟩, hThree, ?_, ?_⟩
  · rw [hSeven]
    intro h
    exact absurd h.count (by decide)
  · rw [hThree]
    exact id

end Lftp.Ports.PgetChunks
