import Mathlib.Data.List.Basic

/-!
# Commands in a stream

An escape in a stream begins a command: the element behind it says whether one more belongs to
it. A doubled escape stands for one. A stream is read in pieces, and a command that is cut off
waits for the rest.

* `strip_append`: what waits is all that a reader has to keep.
* `strip_double`: a stream whose escapes are doubled comes back.
-/

namespace Lftp.Verified.Escapes

variable {α : Type} [DecidableEq α] {esc : α} {long : α → Bool}

/-- What the stream says without its commands, and the beginning of a command at its end. -/
def strip (esc : α) (long : α → Bool) : List α → List α × List α
  | [] => ([], [])
  | x :: s =>
    if x ≠ esc then (x :: (strip esc long s).1, (strip esc long s).2)
    else
      match s with
      | [] => ([], [x])
      | d :: s =>
        if long d then
          match s with
          | [] => ([], [x, d])
          | _ :: s => strip esc long s
        else if d = esc then (d :: (strip esc long s).1, (strip esc long s).2)
        else strip esc long s

/-- Every escape is written twice. -/
def double (esc : α) (s : List α) : List α := s.flatMap fun x => if x = esc then [x, x] else [x]

theorem strip_plain {x : α} (h : x ≠ esc) (s : List α) :
    strip esc long (x :: s) = (x :: (strip esc long s).1, (strip esc long s).2) := by
  rw [strip.eq_def]
  exact if_pos h

theorem strip_plains {p : List α} (h : esc ∉ p) (s : List α) :
    strip esc long (p ++ s) = (p ++ (strip esc long s).1, (strip esc long s).2) := by
  induction p with
  | nil => rfl
  | cons x p ih =>
      obtain ⟨hx, hp⟩ := not_or.mp (List.mem_cons.not.mp h)
      rw [List.cons_append, strip_plain (Ne.symm hx), ih hp, List.cons_append]

theorem strip_cut : strip esc long [esc] = ([], [esc]) := by
  show (if esc ≠ esc then _ else ([], [esc])) = _
  rw [if_neg (not_not.mpr rfl)]

theorem strip_long_cut {d : α} (h : long d = true) : strip esc long [esc, d] = ([], [esc, d]) := by
  show (if esc ≠ esc then _ else if long d then ([], [esc, d]) else _) = _
  rw [if_neg (not_not.mpr rfl), if_pos h]

theorem strip_long {d : α} (h : long d = true) (o : α) (s : List α) :
    strip esc long (esc :: d :: o :: s) = strip esc long s := by
  show (if esc ≠ esc then _ else if long d then strip esc long s else _) = _
  rw [if_neg (not_not.mpr rfl), if_pos h]

/-- An escape and what does not ask for more. -/
theorem strip_escape {d : α} (h : long d = false) (s : List α) :
    strip esc long (esc :: d :: s)
      = if d = esc then (d :: (strip esc long s).1, (strip esc long s).2) else strip esc long s := by
  rw [strip.eq_def]
  exact (if_neg (not_not.mpr rfl)).trans (if_neg (Bool.eq_false_iff.mp h))

theorem strip_pair (h : long esc = false) (s : List α) :
    strip esc long (esc :: esc :: s) = (esc :: (strip esc long s).1, (strip esc long s).2) := by
  rw [strip_escape h, if_pos rfl]

theorem strip_short {d : α} (h : long d = false) (hd : d ≠ esc) (s : List α) :
    strip esc long (esc :: d :: s) = strip esc long s := by
  rw [strip_escape h, if_neg hd]

/-- What comes later is read behind the beginning of a command. -/
theorem strip_append (esc : α) (long : α → Bool) (a b : List α) :
    strip esc long (a ++ b)
      = ((strip esc long a).1 ++ (strip esc long ((strip esc long a).2 ++ b)).1,
          (strip esc long ((strip esc long a).2 ++ b)).2) := by
  fun_induction strip esc long a with
  | case1 => rfl
  | case2 x s hx ih =>
      rw [List.cons_append, strip_plain hx, ih]
      rfl
  | case3 x hx => rfl
  | case4 x hx d hd => rfl
  | case5 x hx d hd o s ih =>
      rw [Decidable.not_not.mp hx]
      exact (strip_long hd o (s ++ b)).trans ih
  | case6 x hx s hd ih =>
      have hShort := Bool.eq_false_iff.mpr hd
      rw [Decidable.not_not.mp hx, List.cons_append, List.cons_append, strip_pair hShort, ih]
      rfl
  | case7 x hx d s hd hNe ih =>
      rw [Decidable.not_not.mp hx]
      exact (strip_short (Bool.eq_false_iff.mpr hd) hNe (s ++ b)).trans ih

/-- The beginning of a command says nothing. -/
theorem strip_left (s : List α) :
    strip esc long (strip esc long s).2 = ([], (strip esc long s).2) := by
  have hAppend := strip_append esc long s []
  rw [List.append_nil, List.append_nil] at hAppend
  have hText := congrArg Prod.fst hAppend
  have hLeft := congrArg Prod.snd hAppend
  dsimp only at hText hLeft
  exact Prod.ext (List.self_eq_append_right.mp hText) hLeft.symm

theorem double_append (s t : List α) : double esc (s ++ t) = double esc s ++ double esc t :=
  List.flatMap_append

theorem double_plains {p : List α} (h : esc ∉ p) : double esc p = p := by
  induction p with
  | nil => rfl
  | cons x p ih =>
      obtain ⟨hx, hp⟩ := not_or.mp (List.mem_cons.not.mp h)
      rw [double, List.flatMap_cons, if_neg (Ne.symm hx), ← double, ih hp, List.singleton_append]

theorem mem_double {x : α} {s : List α} (h : x ∈ double esc s) : x ∈ s := by
  obtain ⟨y, hy, hx⟩ := List.mem_flatMap.mp h
  have hSame : x = y := by
    split at hx <;> simpa using hx
  rwa [hSame]

theorem length_le_double (s : List α) : s.length ≤ (double esc s).length := by
  induction s with
  | nil => exact Nat.zero_le _
  | cons x s ih =>
      rw [double, List.flatMap_cons, ← double, List.length_append, List.length_cons]
      split
      · rw [List.length_cons]
        omega
      · rw [List.length_singleton]
        omega

theorem double_escape (s : List α) : double esc (esc :: s) = esc :: esc :: double esc s := by
  rw [double, List.flatMap_cons, if_pos rfl]
  rfl

theorem strip_double (h : long esc = false) (s : List α) : strip esc long (double esc s) = (s, []) := by
  induction s with
  | nil => rfl
  | cons x s ih =>
      by_cases hx : x = esc
      · rw [hx, double_escape, strip_pair h, ih]
      · rw [double, List.flatMap_cons, if_neg hx, ← double, List.singleton_append, strip_plain hx, ih]

end Lftp.Verified.Escapes
