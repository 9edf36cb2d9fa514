import Mathlib.Data.List.Basic

/-!
# Lines in a stream

A line is what stands before the first terminator. The reader of a stream finds
lines in a buffer that holds the part of the stream that has arrived.

* `idxOf?_line` and `exists_line` say where the first line of a text ends, and `line_inj`
  that a text has one first line.
* `line_in_buffer`: the next line of the stream is whole in the buffer, or the
  buffer holds no terminator.
-/

namespace Lftp.Verified

variable {α : Type} [BEq α] [LawfulBEq α] {c : α}

theorem idxOf?_line {line : List α} (h : c ∉ line) (rest : List α) :
    (line ++ c :: rest).idxOf? c = some line.length := by
  refine List.idxOf?_eq_some_iff.mpr ⟨by simp, by simp, fun j hj hEq => h ?_⟩
  rw [← hEq, List.getElem_append_left hj]
  exact List.getElem_mem hj

theorem line_inj {line line' rest rest' : List α} (h : c ∉ line) (h' : c ∉ line')
    (hEq : line ++ c :: rest = line' ++ c :: rest') : line = line' ∧ rest = rest' := by
  have hFound := idxOf?_line h rest
  rw [hEq, idxOf?_line h' rest', Option.some.injEq] at hFound
  obtain ⟨rfl, hRest⟩ := List.append_inj hEq hFound.symm
  exact ⟨rfl, (List.cons.inj hRest).2⟩

theorem exists_line {s : List α} {i : Nat} (h : s.idxOf? c = some i) :
    ∃ line rest, s = line ++ c :: rest ∧ c ∉ line ∧ line.length = i := by
  obtain ⟨hi, hAt, hBefore⟩ := List.idxOf?_eq_some_iff.mp h
  refine ⟨s.take i, s.drop (i + 1), ?_, fun hMem => ?_, List.length_take_of_le (Nat.le_of_lt hi)⟩
  · rw [← hAt, ← List.drop_eq_getElem_cons hi, List.take_append_drop]
  · obtain ⟨j, hj, hEq⟩ := List.getElem_of_mem hMem
    rw [List.length_take] at hj
    rw [List.getElem_take] at hEq
    exact hBefore j (by omega) hEq

omit [BEq α] [LawfulBEq α] in
/-- The next line of a stream in the buffer. -/
theorem line_in_buffer {line more buffer future : List α} (hLine : c ∉ line)
    (h : buffer ++ future = line ++ c :: more) :
    (∃ rest, buffer = line ++ c :: rest ∧ rest ++ future = more)
      ∨ (c ∉ buffer ∧ future ≠ []) := by
  rcases List.append_eq_append_iff.mp h with ⟨t, hl, hf⟩ | ⟨t, hr, hm⟩
  · right
    refine ⟨fun hMem => hLine (hl ▸ List.mem_append_left _ hMem), ?_⟩
    rw [hf]
    simp
  · cases t with
    | nil =>
        right
        rw [List.append_nil] at hr
        exact ⟨hr ▸ hLine, by rw [← List.nil_append future, ← hm]; simp⟩
    | cons a t =>
        rw [List.cons_append] at hm
        obtain ⟨rfl, rfl⟩ := List.cons.inj hm
        exact .inl ⟨t, hr, rfl⟩

end Lftp.Verified
