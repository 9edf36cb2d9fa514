import Mathlib.Algebra.GroupWithZero.Nat
import Mathlib.Data.List.Nodup
import Mathlib.Logic.Function.Basic

/-!
# A sequence kept in several files

A sequence of cells is laid out over segments that follow each other, each the
contents of a file of its own. `locate` finds the file and the offset of a cell,
and `image` reads the cell there, when the file is long enough.

* `Separate` says that different cells have different places, which they have
  in files of their own (`separate_of_nodup`).
* `patch` is a positional write into one file. `shows_put` and `image_put_apart`
  say what it does to the sequence.
-/

namespace Lftp.Verified.Layout

variable {κ α : Type}

/-- The file that owns cell `p`, and the offset in it. -/
def locate : List (κ × Nat) → Nat → Option (κ × Nat)
  | [], _ => none
  | (k, n) :: segs, p => if p < n then some (k, p) else locate segs (p - n)

/-- The length of the sequence. -/
def total (segs : List (κ × Nat)) : Nat := (segs.map Prod.snd).sum

theorem locate_mem {segs : List (κ × Nat)} {p : Nat} {k : κ} {o : Nat}
    (h : locate segs p = some (k, o)) : ∃ n, (k, n) ∈ segs ∧ o < n := by
  induction segs generalizing p with
  | nil => cases h
  | cons seg segs ih =>
      obtain ⟨k', n⟩ := seg
      rw [locate] at h
      by_cases hp : p < n
      · rw [if_pos hp] at h
        cases h
        exact ⟨n, List.mem_cons_self, hp⟩
      · rw [if_neg hp] at h
        obtain ⟨n', hMem, ho⟩ := ih h
        exact ⟨n', List.mem_cons_of_mem _ hMem, ho⟩

/-- No place belongs to two cells. -/
def Separate (segs : List (κ × Nat)) : Prop :=
  ∀ p q x, locate segs p = some x → locate segs q = some x → p = q

/-- Segments in files of their own have separate places. -/
theorem separate_of_nodup {segs : List (κ × Nat)} (hKeys : (segs.map Prod.fst).Nodup) :
    Separate segs := by
  induction segs with
  | nil => exact fun p q x hp => nomatch hp
  | cons seg segs ih =>
      obtain ⟨k, n⟩ := seg
      obtain ⟨hHead, hTail⟩ := List.nodup_cons.mp hKeys
      have hOther : ∀ r o, locate segs r ≠ some (k, o) := by
        intro r o h
        obtain ⟨n', hMem, -⟩ := locate_mem h
        exact hHead (List.mem_map.mpr ⟨_, hMem, rfl⟩)
      intro p q x hp hq
      rw [locate] at hp hq
      by_cases hpn : p < n <;> by_cases hqn : q < n
      · rw [if_pos hpn] at hp
        rw [if_pos hqn, ← hp] at hq
        exact (congrArg Prod.snd (Option.some.inj hq)).symm
      · rw [if_pos hpn] at hp
        rw [if_neg hqn, ← hp] at hq
        exact absurd hq (hOther _ _)
      · rw [if_pos hqn] at hq
        rw [if_neg hpn, ← hq] at hp
        exact absurd hp (hOther _ _)
      · rw [if_neg hpn] at hp
        rw [if_neg hqn] at hq
        have := ih hTail _ _ _ hp hq
        omega

/-! ## Positional writes -/

/-- The contents of a file after `w` is written at `off`; a gap reads as `fill`. -/
def patch (fill : α) (old : List α) (off : Nat) (w : List α) : List α :=
  (old ++ List.replicate (off - old.length) fill).take off ++ (w ++ old.drop (off + w.length))

theorem length_patch_front (fill : α) (old : List α) (off : Nat) :
    ((old ++ List.replicate (off - old.length) fill).take off).length = off := by
  rw [List.length_take, List.length_append, List.length_replicate]
  omega

theorem getElem?_patch_self (fill : α) (old : List α) (off : Nat) {w : List α} {i : Nat}
    (hi : i < w.length) : (patch fill old off w)[off + i]? = w[i]? := by
  have hFront := length_patch_front fill old off
  rw [patch, List.getElem?_append_right (by omega), hFront, Nat.add_sub_cancel_left,
    List.getElem?_append_left hi]

theorem getElem?_patch_apart (fill : α) {old : List α} {off i : Nat} {w : List α} {b : α}
    (hOld : old[i]? = some b) (hApart : i < off ∨ off + w.length ≤ i) :
    (patch fill old off w)[i]? = some b := by
  have hFront := length_patch_front fill old off
  have hi : i < old.length := (List.getElem?_eq_some_iff.mp hOld).1
  rcases hApart with hlt | hle
  · rw [patch, List.getElem?_append_left (by omega), List.getElem?_take_of_lt hlt,
      List.getElem?_append_left hi, hOld]
  · rw [patch, List.getElem?_append_right (by omega), hFront,
      List.getElem?_append_right (by omega), List.getElem?_drop, ← hOld]
    congr 1
    omega

/-! ## The sequence that the files hold -/

/-- Cell `p`, when its file has it. -/
def image (segs : List (κ × Nat)) (files : κ → Option (List α)) (p : Nat) : Option α :=
  (locate segs p).bind fun x => (files x.1).bind fun f => f[x.2]?

/-- The cells from `p` on are `w`. -/
def Shows (segs : List (κ × Nat)) (files : κ → Option (List α)) (p : Nat) (w : List α) : Prop :=
  ∀ i, i < w.length → image segs files (p + i) = w[i]?

/-- `n` cells from `p` on lie in file `k` from offset `o` on. -/
def Contiguous (segs : List (κ × Nat)) (p n : Nat) (k : κ) (o : Nat) : Prop :=
  ∀ i, i < n → locate segs (p + i) = some (k, o + i)

variable {segs : List (κ × Nat)} {files : κ → Option (List α)} {p o : Nat} {k : κ}

theorem image_of_locate {f : List α} (hPlace : locate segs p = some (k, o))
    (hFile : files k = some f) : image segs files p = f[o]? := by
  simp only [image, hPlace, hFile, Option.bind_some]

theorem shows_append {v w : List α} :
    Shows segs files p (v ++ w) ↔ Shows segs files p v ∧ Shows segs files (p + v.length) w := by
  constructor
  · intro h
    constructor
    · intro i hi
      rw [h i (by rw [List.length_append]; omega), List.getElem?_append_left hi]
    · intro i hi
      have hCell := h (v.length + i) (by rw [List.length_append]; omega)
      rw [List.getElem?_append_right (by omega), Nat.add_sub_cancel_left] at hCell
      rw [← hCell, Nat.add_assoc]
  · rintro ⟨hv, hw⟩ i hi
    by_cases hlt : i < v.length
    · rw [hv i hlt, List.getElem?_append_left hlt]
    · rw [List.length_append] at hi
      have hCell := hw (i - v.length) (by omega)
      rw [List.getElem?_append_right (by omega), ← hCell]
      congr 1
      omega

variable [DecidableEq κ]

/-- What is written is what the cells are afterwards. -/
theorem shows_put {w old : List α} (hPlace : Contiguous segs p w.length k o) (fill : α) :
    Shows segs (Function.update files k (some (patch fill old o w))) p w := by
  intro i hi
  rw [image_of_locate (hPlace i hi) (Function.update_self k _ files),
    getElem?_patch_self fill old o hi]

/-- A write leaves the cells that it does not reach. -/
theorem image_put_apart {w old : List α} (hSeparate : Separate segs)
    (hPlace : Contiguous segs p w.length k o) (fill : α)
    (hOld : ∀ f : List α, files k = some f → ∀ (i : Nat) (b : α), f[i]? = some b →
      old[i]? = some b) {q : Nat} {b : α}
    (hCell : image segs files q = some b) (hApart : q < p ∨ p + w.length ≤ q) :
    image segs (Function.update files k (some (patch fill old o w))) q = some b := by
  obtain ⟨⟨k', o'⟩, hq, hFile⟩ := Option.bind_eq_some_iff.mp hCell
  obtain ⟨f, hf, hb⟩ := Option.bind_eq_some_iff.mp hFile
  by_cases hSame : k' = k
  · subst hSame
    rw [image_of_locate hq (Function.update_self k' _ files)]
    apply getElem?_patch_apart fill (hOld f hf o' b hb)
    by_contra hIn
    have hAt := hPlace (o' - o) (by omega)
    rw [show o + (o' - o) = o' by omega] at hAt
    have := hSeparate _ _ _ hq hAt
    omega
  · rw [image_of_locate (f := f) hq (by rw [Function.update_of_ne hSame]; exact hf), hb]

end Lftp.Verified.Layout
