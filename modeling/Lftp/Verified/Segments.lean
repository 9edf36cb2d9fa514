import Lftp.Verified.Decimal

/-!
# Path segments and C strings

A path is a byte string; its components are the pieces between separators,
`List.splitOn`. A C string is what stands before the first NUL. Both are
computed piecewise over a text put together from separated parts:

* `mem_splitOn_cstr_join`: a component of a joined text, as a C string, is a
  component of one of the parts up to the first that holds a NUL.
* `notMem_of_mem_splitOn`: a component has no separator.
* `records_flatten`: records of one size are cut out of a text again.
* `prefix_flatMap_cases`: a text that is cut off is some parts and a beginning of the next one.
-/

namespace Lftp.Verified

/-- What C reads of the bytes: the part before the first NUL. -/
def cstr (s : Bytes) : Bytes := s.takeWhile (· ≠ 0)

@[simp] theorem cstr_nil : cstr [] = [] := rfl

theorem cstr_cons {c : UInt8} (h : c ≠ 0) (s : Bytes) : cstr (c :: s) = c :: cstr s := by
  simp [cstr, h]

theorem cstr_append_of_mem {s : Bytes} (h : 0 ∈ s) (t : Bytes) :
    cstr (s ++ t) = cstr s := by
  induction s with
  | nil => simp at h
  | cons c s ih =>
      by_cases hc : c = 0
      · simp [cstr, hc]
      · have hs : 0 ∈ s := by simpa [Ne.symm hc] using h
        rw [List.cons_append, cstr_cons hc, cstr_cons hc, ih hs]

theorem cstr_append_of_notMem {s : Bytes} (h : 0 ∉ s) (t : Bytes) :
    cstr (s ++ t) = s ++ cstr t := by
  induction s with
  | nil => rfl
  | cons c s ih =>
      rw [List.mem_cons, not_or] at h
      rw [List.cons_append, cstr_cons (Ne.symm h.1), ih h.2, List.cons_append]

theorem cstr_of_notMem {s : Bytes} (h : 0 ∉ s) : cstr s = s := by
  simpa using cstr_append_of_notMem h []

/-- The parts up to the first one that holds a NUL. -/
def throughNul : List Bytes → List Bytes
  | [] => []
  | e :: es => if 0 ∈ e then [e] else e :: throughNul es

theorem throughNul_map {g : Bytes → Bytes} (hg : ∀ e, 0 ∈ g e ↔ 0 ∈ e) (es : List Bytes) :
    throughNul (es.map g) = (throughNul es).map g := by
  induction es with
  | nil => rfl
  | cons e es ih =>
      by_cases h : 0 ∈ e
      · simp [throughNul, h, (hg e).mpr h]
      · simp [throughNul, h, (hg e).not.mpr h, ih]

/-- The parts `x` and `es` with a separator before each of the latter. -/
def joinSep (sep : UInt8) (x : Bytes) (es : List Bytes) : Bytes :=
  x ++ es.flatMap fun e => sep :: e

theorem joinSep_cons (sep : UInt8) (x e : Bytes) (es : List Bytes) :
    joinSep sep x (e :: es) = x ++ sep :: joinSep sep e es := by
  simp [joinSep]

theorem mem_splitOn_cstr_join {sep : UInt8} (hSep : sep ≠ 0) (w x : Bytes)
    (es : List Bytes) :
    w ∈ (cstr (joinSep sep x es)).splitOn sep ↔
      ∃ e ∈ throughNul (x :: es), w ∈ (cstr e).splitOn sep := by
  induction es generalizing x with
  | nil =>
      rw [joinSep, List.flatMap_nil, List.append_nil]
      by_cases h : 0 ∈ x <;> simp [throughNul, h]
  | cons e es ih =>
      rw [joinSep_cons]
      by_cases h : 0 ∈ x
      · rw [cstr_append_of_mem h]
        simp [throughNul, h]
      · have hThrough : throughNul (x :: e :: es) = x :: throughNul (e :: es) := by
          rw [throughNul, if_neg h]
        rw [cstr_append_of_notMem h, cstr_cons hSep, List.splitOn_append_cons_self,
          List.mem_append, ih, hThrough]
        simp [cstr_of_notMem h]

/-! ## Records of one size -/

/-- The records of `n` bytes that a text starts with, and no part of one. -/
def records (n : Nat) (s : Bytes) : List Bytes :=
  if 0 < n ∧ n ≤ s.length then s.take n :: records n (s.drop n) else []
termination_by s.length
decreasing_by
  rw [List.length_drop]
  omega

theorem length_of_mem_records {n : Nat} {r s : Bytes} (hr : r ∈ records n s) : r.length = n := by
  fun_induction records n s with
  | case1 s hFits ih =>
      rcases List.mem_cons.mp hr with hFirst | hRest
      · rw [hFirst]
        exact List.length_take_of_le hFits.2
      · exact ih hRest
  | case2 s hShort => exact absurd hr List.not_mem_nil

theorem records_append {n : Nat} {r : Bytes} (hn : 0 < n) (hr : r.length = n) (s : Bytes) :
    records n (r ++ s) = r :: records n s := by
  have hFits : 0 < n ∧ n ≤ (r ++ s).length := by
    rw [List.length_append]
    omega
  rw [records, if_pos hFits, List.take_left' hr, List.drop_left' hr]

theorem records_flatten {n : Nat} {rs : List Bytes} (hn : 0 < n) (hrs : ∀ r ∈ rs, r.length = n) :
    records n rs.flatten = rs := by
  induction rs with
  | nil =>
      have hShort : ¬ (0 < n ∧ n ≤ ([] : Bytes).length) := by
        rw [List.length_nil]
        omega
      rw [List.flatten_nil, records, if_neg hShort]
  | cons r rs ih =>
      rw [List.flatten_cons, records_append hn (hrs r List.mem_cons_self),
        ih fun r' hr' => hrs r' (List.mem_cons_of_mem r hr')]

/-! ## Components -/

theorem notMem_of_mem_splitOn {α : Type} [DecidableEq α] {sep : α} {s : List α} :
    ∀ e ∈ s.splitOn sep, sep ∉ e := by
  induction s with
  | nil =>
      intro e he
      rw [List.splitOn_nil, List.mem_singleton] at he
      subst he
      exact List.not_mem_nil
  | cons x s ih =>
      intro e he
      rw [List.splitOn_cons_eq_if_modifyHead] at he
      split_ifs at he with hx
      · rcases List.mem_cons.mp he with rfl | he
        · exact List.not_mem_nil
        · exact ih e he
      · cases hParts : s.splitOn sep with
        | nil => exact absurd hParts (List.splitOn_ne_nil sep s)
        | cons f fs =>
            rw [hParts] at ih
            rw [hParts, List.modifyHead_cons] at he
            rcases List.mem_cons.mp he with rfl | he
            · have hNot := ih f List.mem_cons_self
              simp only [beq_iff_eq] at hx
              exact fun hMem => (List.mem_cons.mp hMem).elim (fun hEq => hx hEq.symm) hNot
            · exact ih e (List.mem_cons_of_mem f he)

theorem length_splitOn_le {α : Type} [DecidableEq α] (sep : α) (s : List α) :
    (s.splitOn sep).length ≤ s.length + 1 := by
  induction s with
  | nil => simp
  | cons x s ih =>
      rw [List.splitOn_cons_eq_if_modifyHead, List.length_cons]
      split_ifs
      · rw [List.length_cons]
        omega
      · rw [List.length_modifyHead]
        omega

theorem notMem_join {α : Type} {sep : List α} {es : List (List α)} {c : α} (hSep : c ∉ sep)
    (h : ∀ e ∈ es, c ∉ e) : c ∉ sep.intercalate es := by
  induction es with
  | nil => exact List.not_mem_nil
  | cons e es ih =>
      have hTail := ih fun e' he' => h e' (List.mem_cons_of_mem e he')
      by_cases hLast : es = []
      · subst hLast
        rw [List.intercalate_singleton]
        exact h e List.mem_cons_self
      · rw [List.intercalate_cons_of_ne_nil hLast]
        simp [h e List.mem_cons_self, hSep, hTail]

theorem mem_join {α : Type} {sep : List α} {es : List (List α)} {c : α} {e : List α} (he : e ∈ es)
    (hc : c ∈ e) : c ∈ sep.intercalate es := by
  induction es with
  | nil => cases he
  | cons e' es ih =>
      by_cases hLast : es = []
      · subst hLast
        rw [List.mem_singleton.mp he] at hc
        rwa [List.intercalate_singleton]
      · rw [List.intercalate_cons_of_ne_nil hLast]
        rcases List.mem_cons.mp he with rfl | he
        · exact List.mem_append_left _ (List.mem_append_left _ hc)
        · exact List.mem_append_right _ (ih he)

/-! ## Texts that are cut off -/

/-- What is left of some parts: whole ones, and possibly the beginning of another. -/
theorem prefix_flatMap_cases {α β : Type} {f : β → List α} {q : List α} {es : List β}
    (h : q <+: es.flatMap f) :
    ∃ es₁ q', es₁ ⊆ es ∧ q = es₁.flatMap f ++ q' ∧
      (q' = [] ∨ q' ≠ [] ∧ ∃ e ∈ es, q' <+: f e ∧ q' ≠ f e) := by
  induction es generalizing q with
  | nil => exact ⟨[], [], List.Subset.refl _, List.prefix_nil.mp h, .inl rfl⟩
  | cons e es ih =>
      rw [List.flatMap_cons] at h
      rcases List.prefix_or_prefix_of_prefix h (List.prefix_append (f e) _) with hInside | hPast
      · by_cases hWhole : q = f e
        · refine ⟨[e], [], by simp, ?_, .inl rfl⟩
          simp [hWhole]
        · refine ⟨[], q, List.nil_subset _, rfl, ?_⟩
          by_cases hNil : q = []
          · exact .inl hNil
          · exact .inr ⟨hNil, e, List.mem_cons_self, hInside, hWhole⟩
      · rcases hPast with ⟨q₂, rfl⟩
        rcases ih ((List.prefix_append_right_inj _).mp h) with ⟨es₁, q', hSub, hText, hEnd⟩
        refine ⟨e :: es₁, q', List.cons_subset_cons e hSub, ?_, ?_⟩
        · rw [hText, List.flatMap_cons, List.append_assoc]
        · refine hEnd.imp id fun hPart => ⟨hPart.1, ?_⟩
          rcases hPart.2 with ⟨e', he', hCut⟩
          exact ⟨e', List.mem_cons_of_mem e he', hCut⟩

end Lftp.Verified
