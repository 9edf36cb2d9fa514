import Lftp.Verified.Relative
import Mathlib.Data.List.DropRight
import Mathlib.Data.List.Infix

/-!
# Paths made shorter

`Path::Optimize` removes from a path, in place, what does not count: empty components, `.`, and
`..` together with what stands before it. What is before the path proper, `prefixSize`, is left
alone: one slash or two, the name of a user, or a device.

A path is a C string here. Where `device_prefix_len` counts, it is not more than its length.
-/

namespace Lftp.Ports.PathOptimize

open Lftp.Verified
open Lftp.Verified.Lexical (slash dot Proper)
open Lftp.Verified.Relative

def tilde : UInt8 := 126

/-- A slash or the end of the string. -/
def ends (c : Option UInt8) : Bool := c = none || c = some slash

/-- `prefix_size` -/
def prefixSize (path : Bytes) (devicePrefixLen : Nat) : Nat :=
  if path[0]? = some slash ∧ path[1]? = some tilde ∧ devicePrefixLen = 1 then
    2 + ((path.drop 2).takeWhile (· ≠ slash)).length
  else if path[0]? = some slash then
    if path[1]? = some slash ∧ path[2]? ≠ some slash then 2 else 1
  else if path[0]? = some tilde then 1 + ((path.drop 1).takeWhile (· ≠ slash)).length
  else devicePrefixLen

/-- The condition of the first loop. `prev` is `in[-1]`. -/
def leads (prev : Option UInt8) (inp : Bytes) : Bool :=
  (inp[0]? = some dot && ends inp[1]?)
    || (prev = some slash
      && (inp[0]? = some slash || (inp[0]? = some dot && inp[1]? = some dot && ends inp[2]?)))

/-- How far the body of the first loop goes. -/
def leap (inp : Bytes) : Nat :=
  let n := if inp[0]? = some dot ∧ inp[1]? = some dot then 2 else 1
  if inp[n]? = some slash then n + 1 else n

theorem leap_pos (inp : Bytes) : 0 < leap inp := by
  unfold leap
  dsimp only
  split_ifs <;> omega

theorem ne_nil_of_leads {prev : Option UInt8} {inp : Bytes} (h : leads prev inp = true) :
    inp ≠ [] := by
  rintro rfl
  simp [leads] at h

/-- The first loop. -/
def skip (prev : Option UInt8) (inp : Bytes) : Bytes :=
  if _h : leads prev inp = true then skip inp[leap inp - 1]? (inp.drop (leap inp)) else inp
termination_by inp.length
decreasing_by
  have hLength := List.length_pos_iff.mpr (ne_nil_of_leads _h)
  have hLeap := leap_pos inp
  rw [List.length_drop]
  omega

def lastElementIsDoubledot (path : Bytes) : Bool :=
  path = dots || (2 < path.length && path.drop (path.length - 3) = slash :: dots)

/-- `..`, where `out` is what has been written, after `k` bytes of the prefix. -/
def prevDir (k : Nat) (out : Bytes) : Bytes :=
  if lastElementIsDoubledot (out.drop k) ∨ out = []
      ∨ (out.length = k ∧ out.getLast? ≠ some slash) then
    (if out ≠ [] ∧ out.getLast? ≠ some slash then out ++ [slash] else out) ++ dots
  else out.take k ++ ((out.drop k).rdropWhile (· ≠ slash)).dropLast

/-- The second loop. -/
def loop (k : Nat) (out inp : Bytes) : Bytes :=
  match inp with
  | [] => out
  | c :: rest =>
    if c = slash then
      if rest[0]? = some slash then loop k out rest
      else if rest[0]? = some dot ∧ ends rest[1]? then loop k out (rest.drop 1)
      else if rest[0]? = some dot ∧ rest[1]? = some dot ∧ ends rest[2]? then
        loop k (prevDir k out) (rest.drop 2)
      else if out ≠ [] ∧ out.getLast? = some slash then loop k out rest
      else loop k (out ++ [c]) rest
    else loop k (out ++ [c]) rest
termination_by inp.length
decreasing_by all_goals simp only [List.length_drop, List.length_cons]; omega

/-- `Path::Optimize` -/
def optimize (path : Bytes) (devicePrefixLen : Nat) : Bytes :=
  let k := prefixSize path devicePrefixLen
  loop k (path.take k) (skip (path.take k).getLast? (path.drop k))

/-! ## Texts in components -/

variable {k : Nat} {out p s t : Bytes} {c : Bytes} {cs : List Bytes}

theorem ends_hung (cs : List Bytes) : ends (hung cs)[0]? = true := by
  cases cs with
  | nil => rfl
  | cons c cs => rfl

/-- What a component begins with says which one it is. -/
theorem dot_iff (h : slash ∉ s) (cs : List Bytes) :
    ((s ++ hung cs)[0]? = some dot ∧ ends (s ++ hung cs)[1]? = true) ↔ s = [dot] := by
  have hHung := ends_hung cs
  rcases s with - | ⟨a, - | ⟨b, s⟩⟩
  · cases cs <;> simp [hung, slash, dot]
  · simp [hHung]
  · have hNe : b ≠ slash := fun hEq => h (by simp [hEq])
    simp [ends, hNe]

theorem dots_iff (h : slash ∉ s) (cs : List Bytes) :
    ((s ++ hung cs)[0]? = some dot ∧ (s ++ hung cs)[1]? = some dot
      ∧ ends (s ++ hung cs)[2]? = true) ↔ s = dots := by
  have hHung := ends_hung cs
  rcases s with - | ⟨a, - | ⟨b, - | ⟨d, s⟩⟩⟩
  · cases cs <;> simp [hung, slash, dot, dots]
  · cases cs <;> simp [hung, slash, dot, dots]
  · simp [hHung, dots]
  · have hNe : d ≠ slash := fun hEq => h (by simp [hEq])
    simp [ends, hNe, dots]

theorem slash_iff (h : slash ∉ s) (cs : List Bytes) :
    (s ++ hung cs)[0]? = some slash ↔ s = [] ∧ cs ≠ [] := by
  cases s with
  | nil => cases cs <;> simp [hung]
  | cons a s =>
      have hNe : a ≠ slash := fun hEq => h (by simp [hEq])
      simp [hNe]

theorem leads_iff {prev : Option UInt8} (h : slash ∉ s) (cs : List Bytes) :
    leads prev (s ++ hung cs) = true
      ↔ s = [dot] ∨ (prev = some slash ∧ ((s = [] ∧ cs ≠ []) ∨ s = dots)) := by
  rw [← dot_iff h cs, ← dots_iff h cs, ← slash_iff h cs]
  unfold leads
  simp [and_assoc]

/-! ## The first loop -/

/-- What the first loop passes by after a slash. -/
def trivial (c : Bytes) : Bool := c = [] || c = [dot] || c = dots

theorem written_cons (c : Bytes) (cs : List Bytes) : written false (c :: cs) = c ++ hung cs := rfl

theorem skip_of_not {prev : Option UInt8} {inp : Bytes} (h : ¬ leads prev inp = true) :
    skip prev inp = inp := by
  rw [skip, dif_neg h]

theorem skip_nil (prev : Option UInt8) : skip prev [] = [] :=
  skip_of_not (by simp [leads])

/-- The body of the first loop, where `n` bytes go and then a slash. -/
theorem skip_leap {prev : Option UInt8} {inp : Bytes} {n : Nat} (h : leads prev inp = true)
    (hn : leap inp = n + 1) : skip prev inp = skip inp[n]? (inp.drop (n + 1)) := by
  rw [skip, dif_pos h, hn, Nat.add_sub_cancel]

theorem hung_cons (c : Bytes) (cs : List Bytes) :
    hung (c :: cs) = slash :: written false (c :: cs) := rfl

/-- One component and the slash after it. -/
theorem skip_component (hc : c = [dot] ∨ c = dots) (t : Bytes) (prev : Option UInt8)
    (h : leads prev (c ++ slash :: t) = true) :
    skip prev (c ++ slash :: t) = skip (some slash) t := by
  rcases hc with rfl | rfl
  · exact skip_leap (n := 1) h rfl
  · exact skip_leap (n := 2) h rfl

/-- After a slash, what is trivial goes. -/
theorem skip_slash (cs : List Bytes) (hcs : ∀ c ∈ cs, slash ∉ c) :
    skip (some slash) (written false cs) = written false (cs.dropWhile trivial) := by
  -- by the number of components, since the body may take two of them
  induction hn : cs.length using Nat.strongRecOn generalizing cs with
  | ind n ih =>
  rcases cs with - | ⟨c, cs⟩
  · exact skip_nil _
  rw [List.length_cons] at hn
  have hc := hcs c List.mem_cons_self
  have hRest : ∀ d ∈ cs, slash ∉ d := fun d hd => hcs d (List.mem_cons_of_mem c hd)
  have hLead : leads (some slash) (written false (c :: cs)) = true
      ↔ c = [dot] ∨ (c = [] ∧ cs ≠ []) ∨ c = dots := by
    rw [written_cons, leads_iff hc]
    simp
  by_cases hTrivial : trivial c = true
  · rw [List.dropWhile_cons_of_pos hTrivial]
    have hCases : c = [] ∨ c = [dot] ∨ c = dots := by simpa [trivial, or_assoc] using hTrivial
    rcases cs with - | ⟨d, cs⟩
    · rcases hCases with rfl | rfl | rfl
      · exact skip_nil _
      · exact (skip_leap (n := 0) (hLead.mpr (.inl rfl)) rfl).trans (skip_nil _)
      · exact (skip_leap (n := 1) (hLead.mpr (.inr (.inr rfl))) rfl).trans (skip_nil _)
    · rcases hCases with rfl | hDots
      · have hGo := hLead.mpr (.inr (.inl ⟨rfl, List.cons_ne_nil d cs⟩))
        rcases d with - | ⟨a, d⟩
        · -- the body takes two slashes at once
          rcases cs with - | ⟨e, cs⟩
          · exact (skip_leap (n := 0) hGo rfl).trans (skip_nil _)
          · have hTail := ih (e :: cs).length (by simp only [List.length_cons] at hn ⊢; omega)
              (e :: cs) (fun d hd => hRest d (List.mem_cons_of_mem [] hd)) rfl
            exact (skip_leap (n := 1) hGo rfl).trans hTail
        · have hNe : a ≠ slash := fun hEq => hRest (a :: d) List.mem_cons_self (by simp [hEq])
          have hLeap : leap (written false ([] :: (a :: d) :: cs)) = 1 := by
            show (if some a = some slash then 2 else 1) = 1
            rw [if_neg (by simpa using hNe)]
          exact (skip_leap (n := 0) hGo hLeap).trans (ih _ (by omega) _ hRest rfl)
      · have hGo := hLead.mpr (hDots.imp_right .inr)
        exact (skip_component hDots _ _ hGo).trans (ih _ (by omega) _ hRest rfl)
  · rw [List.dropWhile_cons_of_neg hTrivial]
    apply skip_of_not
    rw [hLead]
    simp [trivial] at hTrivial
    tauto

/-- Elsewhere it begins with a `.` if at all. -/
theorem skip_other {prev : Option UInt8} (hPrev : prev ≠ some slash) (hc : slash ∉ c)
    (hcs : ∀ c ∈ cs, slash ∉ c) : skip prev (written false (c :: cs))
      = if c = [dot] then written false (cs.dropWhile trivial) else written false (c :: cs) := by
  have hLead := (leads_iff hc cs : leads prev (c ++ hung cs) = true ↔ _)
  by_cases hDot : c = [dot]
  · have hGo := hLead.mpr (.inl hDot)
    rw [if_pos hDot]
    subst hDot
    rcases cs with - | ⟨d, cs⟩
    · exact (skip_leap (n := 0) hGo rfl).trans (skip_nil _)
    · exact (skip_component (.inl rfl) _ _ hGo).trans (skip_slash _ hcs)
  · rw [if_neg hDot]
    apply skip_of_not
    rw [written_cons, hLead]
    tauto

/-! ## The second loop -/

/-- A slash is written if there is none yet. -/
def slashed (out : Bytes) : Bytes :=
  if out ≠ [] ∧ out.getLast? = some slash then out else out ++ [slash]

/-- What the second loop does with a component. -/
def put (k : Nat) (out c : Bytes) : Bytes := if c = dots then prevDir k out else slashed out ++ c

theorem loop_copy (h : slash ∉ s) : loop k out (s ++ t) = loop k (out ++ s) t := by
  induction s generalizing out with
  | nil => simp
  | cons a s ih =>
      rw [List.mem_cons, not_or] at h
      rw [List.cons_append, loop, if_neg (Ne.symm h.1), ih h.2, List.append_assoc]
      rfl

/-- What counts as a component. -/
def counts (c : Bytes) : Bool := c ≠ [] ∧ c ≠ [dot]

/-- After an empty last component there is a slash at the end. -/
def close (cs : List Bytes) (out : Bytes) : Bytes :=
  if cs.getLast? = some [] then slashed out else out

theorem close_cons (h : cs ≠ [] ∨ c ≠ []) : close (c :: cs) out = close cs out := by
  unfold close
  cases cs with
  | nil =>
      have hc : c ≠ [] := h.resolve_left fun hNil => hNil rfl
      rw [if_neg (by simpa using hc), if_neg (by simp)]
  | cons d cs => rw [List.getLast?_cons_cons]

theorem loop_hung (hcs : ∀ c ∈ cs, slash ∉ c) :
    loop k out (hung cs) = close cs ((cs.filter counts).foldl (put k) out) := by
  induction cs generalizing out with
  | nil => simp [hung, loop, close]
  | cons c cs ih =>
      have hc := hcs c List.mem_cons_self
      have hRest := fun d hd => hcs d (List.mem_cons_of_mem c hd)
      rw [hung_cons, written_cons, loop, if_pos rfl]
      have hSlash := slash_iff hc cs
      have hDot := dot_iff hc cs
      have hDots := dots_iff hc cs
      by_cases h₁ : c = [] ∧ cs ≠ []
      · rw [if_pos (hSlash.mpr h₁), close_cons (.inl h₁.2), h₁.1]
        exact ih hRest
      rw [if_neg (fun h => h₁ (hSlash.mp h))]
      by_cases h₂ : c = [dot]
      · rw [if_pos (hDot.mpr h₂), close_cons (.inr (by simp [h₂])), h₂]
        exact ih hRest
      rw [if_neg (fun h => h₂ (hDot.mp h))]
      by_cases h₃ : c = dots
      · rw [if_pos (hDots.mpr h₃), close_cons (.inr (by simp [h₃, dots])), h₃]
        exact ih hRest
      rw [if_neg (fun h => h₃ (hDots.mp h))]
      -- the slash is written or there is one, and then the component is copied
      have hWrite : (if out ≠ [] ∧ out.getLast? = some slash then loop k out (c ++ hung cs)
          else loop k (out ++ [slash]) (c ++ hung cs)) = loop k (slashed out) (c ++ hung cs) := by
        unfold slashed
        split_ifs <;> rfl
      rw [hWrite, loop_copy hc, ih hRest]
      by_cases h₄ : c = []
      · have hNil : cs = [] := by
          by_contra hne
          exact h₁ ⟨h₄, hne⟩
        subst h₄ hNil
        simp [close, counts]
      · have hCounts : counts c = true := decide_eq_true ⟨h₄, h₂⟩
        rw [close_cons (.inr h₄), List.filter_cons_of_pos hCounts, List.foldl_cons, put, if_neg h₃]

/-! ## The text that is made -/

/-- What is before a last element. -/
def Leader (u : Bytes) : Prop := u = [] ∨ ∃ v, u = v ++ [slash]

theorem rtakeWhile_leader {u : Bytes} (hu : Leader u) (hc : slash ∉ c) :
    (u ++ c).rtakeWhile (· ≠ slash) = c := by
  have hAll : ∀ a ∈ c.reverse, decide (a ≠ slash) = true := by
    intro a ha
    exact decide_eq_true fun hEq => hc (hEq ▸ List.mem_reverse.mp ha)
  have hTake : u.reverse.takeWhile (· ≠ slash) = [] := by
    rcases hu with rfl | ⟨v, rfl⟩
    · rfl
    · simp
  unfold List.rtakeWhile
  rw [List.reverse_append, List.takeWhile_append_of_pos hAll, hTake, List.append_nil,
    List.reverse_reverse]

theorem rdropWhile_leader {u : Bytes} (hu : Leader u) (hc : slash ∉ c) :
    (u ++ c).rdropWhile (· ≠ slash) = u := by
  have hAll : ∀ a ∈ c.reverse, decide (a ≠ slash) = true := by
    intro a ha
    exact decide_eq_true fun hEq => hc (hEq ▸ List.mem_reverse.mp ha)
  have hDrop : u.reverse.dropWhile (· ≠ slash) = u.reverse := by
    rcases hu with rfl | ⟨v, rfl⟩
    · rfl
    · simp
  unfold List.rdropWhile
  rw [List.reverse_append, List.dropWhile_append_of_pos hAll, hDrop, List.reverse_reverse]

theorem doubledot_iff {u : Bytes} (hu : Leader u) (hc : slash ∉ c) :
    lastElementIsDoubledot (u ++ c) = true ↔ c = dots := by
  have hLast := rtakeWhile_leader hu hc
  have hDots : slash ∉ dots := by decide
  unfold lastElementIsDoubledot
  rw [Bool.or_eq_true, Bool.and_eq_true, decide_eq_true_eq, decide_eq_true_eq, decide_eq_true_eq]
  constructor
  · rintro (hAll | ⟨hLong, hEnd⟩)
    · have hOther := rtakeWhile_leader (.inl rfl) hDots
      rw [hAll] at hLast
      exact hLast.symm.trans hOther
    · have hText := List.take_append_drop ((u ++ c).length - 3) (u ++ c)
      rw [hEnd] at hText
      have hOther := rtakeWhile_leader (u := (u ++ c).take ((u ++ c).length - 3) ++ [slash])
        (.inr ⟨_, rfl⟩) hDots
      rw [List.append_assoc, List.singleton_append, hText, hLast] at hOther
      exact hOther
  · rintro rfl
    rcases hu with rfl | ⟨v, rfl⟩
    · exact .inl rfl
    · refine .inr ⟨by simp [dots], ?_⟩
      have hLength : (v ++ [slash] ++ dots).length - 3 = v.length := by simp [dots]
      rw [hLength, List.append_assoc, List.drop_left]
      rfl

/-- A spot that is being written, with a slash before it if `lead`. -/
structure Draft where
  lead : Bool
  spot : Spot

/-- What `p` ends with is a root. -/
def rooted (p : Bytes) : Bool := p.getLast? = some slash

def Draft.text (p : Bytes) (d : Draft) : Bytes := p ++ written d.lead d.spot.spell

/-- A component is added. What goes after nothing gets a slash before it, but not `..` after no
prefix, and nothing after a root. -/
def Draft.put (p : Bytes) (d : Draft) (c : Bytes) : Draft :=
  ⟨if d.spot = Spot.here then !rooted p && (c ≠ dots || p ≠ []) else d.lead,
    d.spot.step (rooted p) c⟩

theorem leader_separator (lead : Bool) (cs : List Bytes) :
    Leader (written lead cs ++ separator lead cs) := by
  unfold separator
  split_ifs with h
  · rw [h.2]
    exact .inl rfl
  · exact .inr ⟨_, rfl⟩

variable {d : Draft}

theorem rooted_iff : rooted p = true ↔ p.getLast? = some slash := by simp [rooted]

theorem text_concat (h : d.spot.spell = cs ++ [c]) :
    d.text p = p ++ (written d.lead cs ++ separator d.lead cs ++ c) := by
  rw [Draft.text, h, written_concat]

theorem text_here (h : d.spot = Spot.here) : d.text p = p := by
  have hSpell : d.spot.spell = [] := spell_eq_nil.mpr h
  rw [Draft.text, hSpell]
  exact List.append_nil p

/-- What is written ends with a component. -/
theorem open_text (hSpot : d.spot.Clean (rooted p)) (h : d.spot ≠ Spot.here) :
    d.text p ≠ [] ∧ (d.text p).getLast? ≠ some slash := by
  rcases List.eq_nil_or_concat d.spot.spell with hNil | ⟨cs, c, hSpell⟩
  · exact absurd (spell_eq_nil.mp hNil) h
  · rw [List.concat_eq_append] at hSpell
    have hc : Component c := hSpot.components c (by rw [hSpell]; simp)
    rw [text_concat hSpell]
    constructor
    · simp [hc.ne_nil]
    · rw [← List.append_assoc, List.getLast?_append_of_ne_nil _ hc.ne_nil]
      intro hLast
      exact hc.clean (List.mem_of_getLast? hLast)

theorem slashed_text (hSpot : d.spot.Clean (rooted p)) :
    slashed (d.text p) = d.text p
      ++ if d.spot = Spot.here ∧ rooted p = true then [] else [slash] := by
  unfold slashed
  by_cases hHere : d.spot = Spot.here
  · rw [text_here hHere]
    by_cases hRoot : rooted p = true
    · have hLast := rooted_iff.mp hRoot
      have hne : p ≠ [] := by
        rintro rfl
        cases hLast
      rw [if_pos ⟨hne, hLast⟩, if_pos ⟨hHere, hRoot⟩, List.append_nil]
    · rw [if_neg (fun h => hRoot (rooted_iff.mpr h.2)), if_neg (fun h => hRoot h.2)]
  · rw [if_neg (fun h => (open_text hSpot hHere).2 h.2), if_neg (fun h => hHere h.1)]

theorem put_name (hSpot : d.spot.Clean (rooted p)) (hc : Proper c) :
    put p.length (d.text p) c = (d.put p c).text p := by
  have hDots : c ≠ dots := hc.ne_dots
  unfold put
  rw [if_neg hDots, slashed_text hSpot]
  unfold Draft.put Draft.text
  rw [step_name hc, spell_name]
  by_cases hHere : d.spot = Spot.here
  · have hSpell : d.spot.spell = [] := spell_eq_nil.mpr hHere
    rw [hSpell]
    cases hRoot : rooted p <;> simp [hHere, hDots, written, hung]
  · have hSpell : d.spot.spell ≠ [] := fun hNil => hHere (spell_eq_nil.mp hNil)
    rw [if_neg (fun h => hHere h.1)]
    dsimp only
    rw [if_neg hHere, written_concat, separator, if_neg (fun h => hSpell h.2)]
    simp

/-- `..` after a name removes it. -/
theorem prevDir_name (hSpot : d.spot.Clean (rooted p)) (h : d.spot.names ≠ []) :
    prevDir p.length (d.text p) = (d.put p dots).text p := by
  have hSpell := spell_dropLast h
  have hProper : Proper (d.spot.names.getLast h) := hSpot.proper _ (List.getLast_mem h)
  have hHere : d.spot ≠ Spot.here := fun hEq => h (by rw [hEq]; rfl)
  generalize d.spot.names.getLast h = c at hSpell hProper
  have hLeader := leader_separator d.lead
    ({ d.spot with names := d.spot.names.dropLast } : Spot).spell
  unfold prevDir
  rw [text_concat hSpell.symm, List.drop_left, List.take_left, if_neg, rdropWhile_leader hLeader
    hProper.clean]
  · unfold Draft.put Draft.text
    dsimp only
    rw [if_neg hHere, step_dots_name h]
    congr 1
    unfold separator
    split_ifs with hFirst
    · rw [hFirst.2]
      rfl
    · exact List.dropLast_concat
  · rintro (hDots | hNil | ⟨hLength, -⟩)
    · exact hProper.ne_dots ((doubledot_iff hLeader hProper.clean).mp hDots)
    · simp [hProper.ne_nil] at hNil
    · simp [hProper.ne_nil] at hLength

/-- `..` at a root does nothing. -/
theorem prevDir_root (hRoot : rooted p = true) (hHere : d.spot = Spot.here) :
    prevDir p.length (d.text p) = (d.put p dots).text p := by
  have hLast := rooted_iff.mp hRoot
  have hne : p ≠ [] := by
    rintro rfl
    cases hLast
  have hStay : (d.put p dots).spot = Spot.here := by
    unfold Draft.put
    dsimp only
    rw [hHere, hRoot]
    exact step_dots_root rfl
  rw [text_here hHere, text_here hStay]
  unfold prevDir
  rw [List.drop_length, if_neg, List.take_length]
  · exact List.append_nil p
  · rintro (hDots | hNil | ⟨-, hOpen⟩)
    · cases hDots
    · exact hne hNil
    · exact hOpen hLast

/-- Elsewhere it is written after what climbs already. -/
theorem prevDir_up (hRoot : rooted p = false) (hSpot : d.spot.Clean (rooted p))
    (h : d.spot.names = []) : prevDir p.length (d.text p) = (d.put p dots).text p := by
  unfold Draft.put
  rw [hRoot, step_dots_up h]
  by_cases hHere : d.spot = Spot.here
  · have hSpell : d.spot.spell = [] := spell_eq_nil.mpr hHere
    have hOpen : p.getLast? ≠ some slash := fun hLast => by
      rw [rooted_iff.mpr hLast] at hRoot
      cases hRoot
    rw [text_here hHere]
    unfold prevDir Draft.text
    rw [if_pos (.inr (.inr ⟨rfl, hOpen⟩)), spell_up h, hSpell]
    by_cases hNil : p = []
    · subst hNil
      simp [hHere, written, hung]
    · simp [hHere, hNil, hOpen, written, hung]
  · obtain ⟨cs, hSpell⟩ := spell_ups h hHere
    have hOpen := open_text hSpot hHere
    have hDots : lastElementIsDoubledot ((d.text p).drop p.length) = true := by
      rw [text_concat hSpell, List.drop_left]
      exact (doubledot_iff (leader_separator ..) (by decide)).mpr rfl
    unfold prevDir
    rw [if_pos (.inl hDots), if_pos hOpen]
    unfold Draft.text
    dsimp only
    rw [if_neg hHere, spell_up h, written_concat, separator,
      if_neg (fun hBoth => hHere (spell_eq_nil.mp hBoth.2))]
    simp

theorem put_text (hSpot : d.spot.Clean (rooted p)) (hc : Component c) :
    put p.length (d.text p) c = (d.put p c).text p := by
  rcases hc with rfl | hProper
  · rw [put, if_pos rfl]
    by_cases hNames : d.spot.names = []
    · cases hRoot : rooted p with
      | true =>
          apply prevDir_root hRoot
          obtain ⟨lead, ups, names⟩ := d
          obtain rfl : names = [] := hNames
          obtain rfl : ups = 0 := hSpot.grounded hRoot
          rfl
      | false => exact prevDir_up hRoot hSpot hNames
    · exact prevDir_name hSpot hNames
  · exact put_name hSpot hProper

/-! ## Whole paths -/

theorem counts_of_component (h : Component c) : counts c = true :=
  decide_eq_true ⟨h.ne_nil, h.ne_dot⟩

theorem component_of_counts (hcs : ∀ c ∈ cs, slash ∉ c) (hc : c ∈ cs.filter counts) :
    Component c := by
  obtain ⟨hMem, hCounts⟩ := List.mem_filter.mp hc
  have hBoth : c ≠ [] ∧ c ≠ [dot] := by simpa [counts] using hCounts
  exact component_of hBoth.1 hBoth.2 (hcs c hMem)

theorem spot_foldl (cs : List Bytes) (d : Draft) :
    (cs.foldl (Draft.put p) d).spot = cs.foldl (Spot.step (rooted p)) d.spot := by
  induction cs generalizing d with
  | nil => rfl
  | cons c cs ih => exact ih (d.put p c)

theorem foldl_put (hcs : ∀ c ∈ cs, Component c) (hSpot : d.spot.Clean (rooted p)) :
    cs.foldl (put p.length) (d.text p) = (cs.foldl (Draft.put p) d).text p
      ∧ (cs.foldl (Draft.put p) d).spot.Clean (rooted p) := by
  induction cs generalizing d with
  | nil => exact ⟨rfl, hSpot⟩
  | cons c cs ih =>
      have hc := hcs c List.mem_cons_self
      rw [List.foldl_cons, put_text hSpot hc]
      exact ih (fun e he => hcs e (List.mem_cons_of_mem c he)) (hSpot.step hc)

/-- The second loop finishes the text of a draft. -/
theorem loop_text (hcs : ∀ c ∈ cs, slash ∉ c) (hSpot : d.spot.Clean (rooted p)) :
    loop p.length (d.text p) (hung cs) = ((cs.filter counts).foldl (Draft.put p) d).text p
      ++ if cs.getLast? = some []
          ∧ ¬(((cs.filter counts).foldl (Draft.put p) d).spot = Spot.here ∧ rooted p = true)
        then [slash] else [] := by
  obtain ⟨hText, hClean⟩ := foldl_put (fun c hc => component_of_counts hcs hc) hSpot
  rw [loop_hung hcs, hText]
  unfold close
  by_cases hLast : cs.getLast? = some []
  · rw [if_pos hLast, slashed_text hClean]
    congr 1
    split_ifs with h₁ h₂ h₂
    · exact absurd h₁ h₂.2
    · rfl
    · rfl
    · exact absurd ⟨hLast, h₁⟩ h₂
  · rw [if_neg hLast, if_neg (fun h => hLast h.1), List.append_nil]

theorem exists_segments (r : Bytes) :
    ∃ s cs, slash ∉ s ∧ (∀ c ∈ cs, slash ∉ c) ∧ r = s ++ hung cs := by
  induction r with
  | nil => exact ⟨[], [], List.not_mem_nil, fun _ h => absurd h List.not_mem_nil, rfl⟩
  | cons a r ih =>
      obtain ⟨s, cs, hs, hcs, rfl⟩ := ih
      by_cases ha : a = slash
      · subst ha
        refine ⟨[], s :: cs, List.not_mem_nil, ?_, rfl⟩
        intro c hc
        rcases List.mem_cons.mp hc with rfl | hRest
        · exact hs
        · exact hcs c hRest
      · refine ⟨a :: s, cs, ?_, hcs, rfl⟩
        rw [List.mem_cons, not_or]
        exact ⟨fun h => ha h.symm, hs⟩

theorem components_segments (hs : slash ∉ s) (hcs : ∀ c ∈ cs, slash ∉ c) :
    components (s ++ hung cs) = (s :: cs).filter counts := by
  rw [components_append_hung hs hcs, components_clean hs, List.filter_cons]
  unfold counts
  by_cases h : s ≠ [] ∧ s ≠ [dot]
  · rw [if_pos h, if_pos (decide_eq_true h)]
    rfl
  · rw [if_neg h, if_neg (by simpa using h)]
    rfl

theorem getLast?_segments (hs : slash ∉ s) (hcs : ∀ c ∈ cs, slash ∉ c) :
    (s ++ hung cs).getLast? = some slash ↔ cs.getLast? = some [] := by
  rcases List.eq_nil_or_concat cs with rfl | ⟨ds, c, rfl⟩
  · simp only [hung, List.flatMap_nil, List.append_nil, List.getLast?_nil]
    exact iff_of_false (fun h => hs (List.mem_of_getLast? h)) (by simp)
  · rw [List.concat_eq_append] at hcs ⊢
    have hc : slash ∉ c := hcs c (by simp)
    rw [hung_concat, List.getLast?_concat, ← List.append_assoc]
    by_cases hNil : c = []
    · subst hNil
      simp
    · have hEnd : (s ++ hung ds ++ slash :: c).getLast? = c.getLast? := by
        rw [List.getLast?_append_of_ne_nil _ (by simp), List.getLast?_cons]
        cases c with
        | nil => exact absurd rfl hNil
        | cons a c => simp [List.getLast?_cons]
      rw [hEnd]
      refine iff_of_false (fun h => hc (List.mem_of_getLast? h)) ?_
      simpa using hNil

theorem takeWhile_segments (hs : slash ∉ s) (cs : List Bytes) :
    (s ++ hung cs).takeWhile (· ≠ slash) = s := by
  have hAll : ∀ a ∈ s, decide (a ≠ slash) = true :=
    fun a ha => decide_eq_true fun hEq => hs (hEq ▸ ha)
  rw [List.takeWhile_append_of_pos hAll]
  cases cs <;> simp [hung]

/-- What the first loop leaves ends as the whole did. -/
theorem written_dropWhile (q : Bytes → Bool) (cs : List Bytes) :
    ∃ u, written false cs = u ++ written false (cs.dropWhile q) := by
  induction cs with
  | nil => exact ⟨[], rfl⟩
  | cons c cs ih =>
      by_cases hq : q c = true
      · obtain ⟨u, hu⟩ := ih
        rw [List.dropWhile_cons_of_pos hq]
        cases cs with
        | nil => exact ⟨c, rfl⟩
        | cons e es =>
            refine ⟨c ++ slash :: u, ?_⟩
            rw [written_cons, hung_cons, hu]
            simp
      · rw [List.dropWhile_cons_of_neg hq]
        exact ⟨[], rfl⟩

theorem filter_dropWhile (cs : List Bytes) : (cs.dropWhile trivial).filter counts
    = (cs.filter counts).dropWhile (· = dots) := by
  induction cs with
  | nil => rfl
  | cons c cs ih =>
      by_cases hCounts : counts c = true
      · rw [List.filter_cons_of_pos hCounts]
        have hBoth : c ≠ [] ∧ c ≠ [dot] := by simpa [counts] using hCounts
        by_cases hDots : c = dots
        · rw [List.dropWhile_cons_of_pos (by simp [trivial, hDots]),
            List.dropWhile_cons_of_pos (by simp [hDots]), ih]
        · rw [List.dropWhile_cons_of_neg (by simp [trivial, hDots, hBoth]),
            List.dropWhile_cons_of_neg (by simp [hDots]), List.filter_cons_of_pos hCounts]
      · have hTrivial : trivial c = true := by
          simp [counts] at hCounts
          by_cases hNil : c = []
          · simp [trivial, hNil]
          · simp [trivial, hCounts hNil]
        rw [List.filter_cons_of_neg hCounts, List.dropWhile_cons_of_pos hTrivial, ih]

/-- What climbs at the beginning. -/
theorem eq_replicate_append (cs : List Bytes) : ∃ n,
    cs = List.replicate n dots ++ cs.dropWhile (· = dots) := by
  induction cs with
  | nil => exact ⟨0, rfl⟩
  | cons c cs ih =>
      by_cases hDots : c = dots
      · obtain ⟨n, hn⟩ := ih
        refine ⟨n + 1, ?_⟩
        rw [List.dropWhile_cons_of_pos (by simp [hDots]), List.replicate_succ, List.cons_append,
          ← hn, hDots]
      · exact ⟨0, by rw [List.dropWhile_cons_of_neg (by simp [hDots])]; rfl⟩

/-- Some components at the beginning cancel out. -/
def Cancels (cs : List Bytes) : Prop := ∃ m, m ≠ [] ∧ m <+: cs ∧ Spot.walk false m = Spot.here

theorem cancels_concat (cs : List Bytes) (c : Bytes) :
    Cancels (cs ++ [c]) ↔ Cancels cs ∨ Spot.walk false (cs ++ [c]) = Spot.here := by
  constructor
  · rintro ⟨m, hm, hPrefix, hWalk⟩
    rcases List.prefix_concat_iff.mp hPrefix with hAll | hPart
    · rw [hAll] at hWalk
      exact .inr hWalk
    · exact .inl ⟨m, hm, hPart, hWalk⟩
  · rintro (⟨m, hm, hPrefix, hWalk⟩ | hWalk)
    · exact ⟨m, hm, hPrefix.trans (List.prefix_append cs [c]), hWalk⟩
    · exact ⟨cs ++ [c], by simp, List.prefix_rfl, hWalk⟩

theorem step_here_ne (hc : Component c) : Spot.here.step false c ≠ Spot.here := by
  rcases hc with rfl | hProper
  · decide
  · rw [step_name hProper]
    simp [Spot.here]

/-- A step does not bring what has climbed back to the level of the start. -/
theorem ups_step {w : Spot} (hw : w ≠ Spot.here) (hc : Component c) :
    (w.step false c).ups = 0 ↔ w.ups = 0 := by
  rcases hc with rfl | hProper
  · by_cases hNames : w.names = []
    · have hUps : w.ups ≠ 0 := by
        intro hZero
        apply hw
        obtain ⟨ups, names⟩ := w
        obtain rfl : names = [] := hNames
        obtain rfl : ups = 0 := hZero
        rfl
      rw [step_dots_up hNames]
      exact iff_of_false (Nat.succ_ne_zero _) hUps
    · rw [step_dots_name hNames]
  · rw [step_name hProper]

/-- Whether a draft that began with a component has got a slash before it. -/
structure Led (p : Bytes) (cs : List Bytes) (d : Draft) : Prop where
  spot : d.spot = Spot.walk false cs
  cancels : d.spot = Spot.here → Cancels cs
  lead_iff : d.spot ≠ Spot.here → (d.lead = true ↔ Cancels cs ∧ (p = [] → d.spot.ups = 0))

theorem led_first (hc : Component c) : Led p [c] ⟨false, Spot.here.step false c⟩ := by
  have hne := step_here_ne hc
  have hNot : ¬ Cancels [c] := by
    rintro ⟨m, hm, hPrefix, hWalk⟩
    rcases List.prefix_concat_iff.mp (show m <+: [] ++ [c] from hPrefix) with rfl | hNil
    · exact hne hWalk
    · exact hm (List.prefix_nil.mp hNil)
  exact ⟨rfl, fun h => absurd h hne, fun _ => iff_of_false (by simp) fun h => hNot h.1⟩

theorem Led.put (h : Led p cs d) (hp : rooted p = false) (hc : Component c) :
    Led p (cs ++ [c]) (d.put p c) := by
  have hSpot : (d.put p c).spot = Spot.walk false (cs ++ [c]) := by
    rw [walk_append, ← h.spot]
    unfold Draft.put
    rw [hp]
    rfl
  refine ⟨hSpot, fun hHere => ?_, fun hne => ?_⟩
  · rw [cancels_concat, ← hSpot]
    exact .inr hHere
  · rw [cancels_concat, ← hSpot, or_iff_left hne]
    unfold Draft.put
    rw [hp]
    by_cases hHere : d.spot = Spot.here
    · rw [and_iff_right (h.cancels hHere)]
      dsimp only
      rw [hHere, if_pos rfl]
      rcases hc with rfl | hProper
      · by_cases hNil : p = [] <;> simp [hNil, step_dots_up, Spot.here]
      · have hDots : c ≠ dots := hProper.ne_dots
        rw [step_name hProper]
        simp [hDots, Spot.here]
    · dsimp only
      rw [if_neg hHere, ups_step hHere hc]
      exact h.lead_iff hHere

theorem led_foldl (hp : rooted p = false) {first : Bytes} (hFirst : Component first)
    (hcs : ∀ c ∈ cs, Component c) :
    Led p (first :: cs) (cs.foldl (Draft.put p) ⟨false, Spot.here.step false first⟩) := by
  induction cs using List.reverseRecOn with
  | nil => exact led_first hFirst
  | append_singleton cs c ih =>
      rw [List.foldl_concat]
      exact (ih fun e he => hcs e (List.mem_append_left [c] he)).put hp
        (hcs c (by simp))

/-- What counts of a path that is relative to its prefix: `..` is lost after `.`. -/
def ground (r : Bytes) : List Bytes :=
  if r.takeWhile (· ≠ slash) = [dot] then (components r).dropWhile (· = dots) else components r

/-- A path of which the first component is copied. -/
theorem loop_first (hc : Component c) (hFirst : (Spot.here.step (rooted p) c).spell = [c])
    (hcs : ∀ c ∈ cs, slash ∉ c) :
    let d := (cs.filter counts).foldl (Draft.put p) ⟨false, Spot.here.step (rooted p) c⟩
    loop p.length p (c ++ hung cs) = d.text p
      ++ if (c ++ hung cs).getLast? = some slash ∧ ¬(d.spot = Spot.here ∧ rooted p = true)
        then [slash] else [] := by
  intro d
  have hText : p ++ c = Draft.text p ⟨false, Spot.here.step (rooted p) c⟩ := by
    unfold Draft.text
    rw [hFirst]
    simp [written, hung]
  have hSpot : (Spot.here.step (rooted p) c).Clean (rooted p) := (clean_here _).step hc
  rw [loop_copy hc.clean, hText, loop_text hcs hSpot]
  simp only [getLast?_segments hc.clean hcs]
  rfl

theorem not_trivial_head {l : List Bytes} (h : l.dropWhile trivial = c :: cs) :
    trivial c = false := by
  have hHead := List.head?_dropWhile_not trivial l
  rw [h] at hHead
  exact hHead

theorem mem_dropWhile {l : List Bytes} (hl : ∀ c ∈ l, slash ∉ c)
    (h : l.dropWhile trivial = c :: cs) : slash ∉ c ∧ ∀ e ∈ cs, slash ∉ e := by
  have hSub : ∀ e ∈ c :: cs, slash ∉ e := fun e he =>
    hl e ((List.dropWhile_sublist trivial).subset (h ▸ he))
  exact ⟨hSub c List.mem_cons_self, fun e he => hSub e (List.mem_cons_of_mem c he)⟩

theorem proper_of_not_trivial (h : trivial c = false) (hc : slash ∉ c) : Proper c := by
  simp [trivial] at h
  exact ⟨h.1.1, h.1.2, h.2, hc⟩

/-- What no component changes. -/
theorem lead_foldl {b : Bool} (hPut : ∀ d c, Draft.lead d = b → (d.put p c).lead = b)
    (cs : List Bytes) (h : d.lead = b) : (cs.foldl (Draft.put p) d).lead = b := by
  induction cs generalizing d with
  | nil => exact h
  | cons c cs ih => exact ih (hPut d c h)

theorem lead_put_rooted (hp : rooted p = true) (d : Draft) (c : Bytes) (h : d.lead = false) :
    (d.put p c).lead = false := by
  unfold Draft.put
  rw [hp]
  dsimp only
  split_ifs
  · rfl
  · exact h

theorem lead_put_open (hp : rooted p = false) (hne : p ≠ []) (d : Draft) (c : Bytes)
    (h : d.lead = true) : (d.put p c).lead = true := by
  unfold Draft.put
  rw [hp]
  simp [hne, h]

theorem getLast?_open (hp : rooted p = false) : p.getLast? ≠ some slash := by
  intro hLast
  rw [rooted_iff.mpr hLast] at hp
  cases hp

/-- The end of a path is that of what the first loop leaves. -/
theorem getLast?_dropWhile {r : Bytes} (q : Bytes → Bool) {l : List Bytes}
    (hr : r = written false l) (h : l.dropWhile q = c :: cs) (hc : c ≠ []) :
    (c ++ hung cs).getLast? = r.getLast? := by
  obtain ⟨u, hu⟩ := written_dropWhile q l
  have hne : c ++ hung cs ≠ [] := by simp [hc]
  rw [hr, hu, h]
  exact (List.getLast?_append_of_ne_nil u hne).symm

/-- A path below a root. -/
theorem optimize_rooted {r : Bytes} (hp : rooted p = true) :
    loop p.length p (skip p.getLast? r)
      = p ++ written false (Spot.walk true (components r)).spell
        ++ if r.getLast? = some slash ∧ Spot.walk true (components r) ≠ Spot.here then [slash]
          else [] := by
  obtain ⟨s, cs, hs, hcs, rfl⟩ := exists_segments r
  have hAll : ∀ c ∈ s :: cs, slash ∉ c := List.forall_mem_cons.mpr ⟨hs, hcs⟩
  have hSkip : skip p.getLast? (s ++ hung cs) = written false ((s :: cs).dropWhile trivial) := by
    rw [rooted_iff.mp hp]
    exact skip_slash (s :: cs) hAll
  have hWalk : Spot.walk true (components (s ++ hung cs))
      = Spot.walk true (((s :: cs).dropWhile trivial).filter counts) := by
    obtain ⟨n, hn⟩ := eq_replicate_append ((s :: cs).filter counts)
    rw [components_segments hs hcs, hn, walk_replicate_root, filter_dropWhile]
  rw [hSkip, hWalk]
  rcases hDrop : (s :: cs).dropWhile trivial with - | ⟨c, cs'⟩
  · have hHere : Spot.walk true (([] : List Bytes).filter counts) = Spot.here := rfl
    rw [hHere, if_neg (fun h => h.2 rfl)]
    simp [written, loop, Spot.spell, Spot.here]
  · obtain ⟨hc, hcs'⟩ := mem_dropWhile hAll hDrop
    have hProper := proper_of_not_trivial (not_trivial_head hDrop) hc
    have hFirst : (Spot.here.step (rooted p) c).spell = [c] := by
      rw [step_name hProper]
      rfl
    have hLoop := loop_first (.inr hProper) hFirst hcs'
    dsimp only at hLoop
    have hSpot := spot_foldl (p := p) (cs'.filter counts) ⟨false, Spot.here.step (rooted p) c⟩
    have hLead := lead_foldl (lead_put_rooted hp) (cs'.filter counts)
      (d := ⟨false, Spot.here.step (rooted p) c⟩) rfl
    have hWalk' : Spot.walk true ((c :: cs').filter counts)
        = (cs'.filter counts).foldl (Spot.step (rooted p)) (Spot.here.step (rooted p) c) := by
      rw [List.filter_cons_of_pos (counts_of_component (.inr hProper)), hp]
      rfl
    rw [written_cons, hLoop, getLast?_dropWhile trivial rfl hDrop hProper.ne_nil, hWalk', ← hSpot]
    unfold Draft.text
    rw [hLead]
    simp [hp, written_cons]

/-- A path with a slash after its prefix. -/
theorem optimize_joined {r : Bytes} (hp : rooted p = false) (hne : p ≠ [])
    (h : r.head? = some slash) :
    loop p.length p (skip p.getLast? r)
      = p ++ written true (Spot.walk false (components r)).spell
        ++ if r.getLast? = some slash then [slash] else [] := by
  obtain ⟨s, cs, hs, hcs, rfl⟩ := exists_segments r
  rw [List.head?_eq_getElem?, slash_iff hs] at h
  obtain ⟨rfl, -⟩ := h
  have hSkip : skip p.getLast? ([] ++ hung cs) = hung cs := by
    have hOther := skip_other (getLast?_open hp) hs hcs
    rw [if_neg (by decide)] at hOther
    exact hOther
  have hStart : p = Draft.text p ⟨true, Spot.here⟩ := (text_here rfl).symm
  have hLoop := loop_text (p := p) (d := ⟨true, Spot.here⟩) hcs (clean_here _)
  have hSpot := spot_foldl (p := p) (cs.filter counts) ⟨true, Spot.here⟩
  rw [← hStart] at hLoop
  rw [hSkip, hLoop, components_segments hs hcs]
  unfold Draft.text
  rw [lead_foldl (lead_put_open hp hne) _ rfl, hSpot, hp]
  simp only [getLast?_segments hs hcs]
  simp [counts, Spot.walk]

theorem spell_first (h : Component c) : (Spot.here.step false c).spell = [c] := by
  rcases h with rfl | hProper
  · rfl
  · rw [step_name hProper]
    rfl

/-- What the first loop leaves of a path that follows its prefix directly. -/
theorem skip_direct {r : Bytes} {prev : Option UInt8} (hOpen : prev ≠ some slash)
    (h : r.head? ≠ some slash) : ∃ l, skip prev r = written false l
      ∧ ground r = l.filter counts
      ∧ ∀ c cs, l = c :: cs → Component c ∧ (∀ e ∈ cs, slash ∉ e)
        ∧ (c ++ hung cs).getLast? = r.getLast? := by
  obtain ⟨s, cs, hs, hcs, rfl⟩ := exists_segments r
  have hAll : ∀ c ∈ s :: cs, slash ∉ c := List.forall_mem_cons.mpr ⟨hs, hcs⟩
  rw [List.head?_eq_getElem?, Ne, slash_iff hs] at h
  have hSkip := skip_other hOpen hs hcs
  rw [written_cons] at hSkip
  unfold ground
  rw [takeWhile_segments hs, components_segments hs hcs]
  by_cases hDot : s = [dot]
  · have hGone : (s :: cs).dropWhile trivial = cs.dropWhile trivial :=
      List.dropWhile_cons_of_pos (by simp [trivial, hDot])
    rw [if_pos hDot] at hSkip ⊢
    refine ⟨cs.dropWhile trivial, hSkip, ?_, fun c cs' hl => ?_⟩
    · rw [← filter_dropWhile, hGone]
    · rw [← hGone] at hl
      obtain ⟨hc, hcs'⟩ := mem_dropWhile hAll hl
      have hProper := proper_of_not_trivial (not_trivial_head hl) hc
      exact ⟨.inr hProper, hcs', getLast?_dropWhile trivial rfl hl hProper.ne_nil⟩
  · rw [if_neg hDot] at hSkip ⊢
    by_cases hNil : s = []
    · obtain rfl : cs = [] := by
        by_contra hne
        exact h ⟨hNil, hne⟩
      subst hNil
      exact ⟨[], hSkip, rfl, fun c cs' hl => nomatch hl⟩
    · refine ⟨s :: cs, hSkip, rfl, fun c cs' hl => ?_⟩
      obtain ⟨rfl, rfl⟩ := List.cons.inj hl
      exact ⟨component_of hNil hDot hs, hcs, rfl⟩

/-- A path that follows its prefix directly. -/
theorem optimize_direct {r : Bytes} (hp : rooted p = false) (h : r.head? ≠ some slash) :
    ∃ lead, loop p.length p (skip p.getLast? r)
        = p ++ written lead (Spot.walk false (ground r)).spell
          ++ (if ground r ≠ [] ∧ r.getLast? = some slash then [slash] else [])
      ∧ (Spot.walk false (ground r) ≠ Spot.here → (lead = true ↔
        Cancels (ground r) ∧ (p = [] → (Spot.walk false (ground r)).ups = 0))) := by
  obtain ⟨l, hSkip, hGround, hFront⟩ := skip_direct (getLast?_open hp) h
  rw [hSkip, hGround]
  rcases l with - | ⟨c, cs⟩
  · refine ⟨false, ?_, fun hne => absurd rfl hne⟩
    simp [written, loop, Spot.walk, Spot.spell, Spot.here]
  · obtain ⟨hc, hcs, hLast⟩ := hFront c cs rfl
    have hLed := led_foldl hp hc fun e he => component_of_counts hcs he
    have hLoop := loop_first (p := p) hc (by rw [hp]; exact spell_first hc) hcs
    dsimp only at hLoop
    rw [List.filter_cons_of_pos (counts_of_component hc), written_cons, ← hLed.spot]
    rw [hp] at hLoop
    refine ⟨_, ?_, hLed.lead_iff⟩
    rw [hLoop, hLast]
    simp [Draft.text]

/-! ## Prefixes -/

/-- What `prefixSize` counts. -/
inductive Prefix (n : Nat) : Bytes → Prop
  | rootUser {u : Bytes} (clean : slash ∉ u) (one : n = 1) : Prefix n (slash :: tilde :: u)
  | root : Prefix n [slash]
  | roots : Prefix n [slash, slash]
  | user {u : Bytes} (clean : slash ∉ u) : Prefix n (tilde :: u)
  | device {p : Bytes} (length : n = p.length) (noSlash : p.head? ≠ some slash)
      (noTilde : p.head? ≠ some tilde) : Prefix n p

/-- A prefix that is the name of a user. -/
def isUser (p : Bytes) : Bool := p.head? = some tilde || p.take 2 = [slash, tilde]

/-- What may come after a prefix. -/
structure Follows (n : Nat) (p r : Bytes) : Prop where
  user : isUser p = true → r.head? = none ∨ r.head? = some slash
  root : p = [slash] → n = 1 → r.head? ≠ some tilde
  empty : p = [] → r.head? ≠ some slash ∧ r.head? ≠ some tilde

theorem takeWhile_user {u r : Bytes} (hu : slash ∉ u)
    (hr : r.head? = none ∨ r.head? = some slash) : (u ++ r).takeWhile (· ≠ slash) = u := by
  have hAll : ∀ a ∈ u, decide (a ≠ slash) = true :=
    fun a ha => decide_eq_true fun hEq => hu (hEq ▸ ha)
  rw [List.takeWhile_append_of_pos hAll]
  rcases r with - | ⟨a, r⟩
  · exact List.append_nil u
  · have ha : a = slash := by simpa using hr
    simp [ha]

theorem prefixSize_append {n : Nat} {p r : Bytes} (hp : Prefix n p) (h : Follows n p r)
    (hRoot : rooted p = true → r.head? ≠ some slash) : prefixSize (p ++ r) n = p.length := by
  unfold prefixSize
  cases hp with
  | @rootUser u clean one =>
      have hTake := takeWhile_user clean (h.user (by simp [isUser]))
      rw [if_pos ⟨rfl, rfl, one⟩]
      show 2 + ((u ++ r).takeWhile _).length = u.length + 1 + 1
      rw [hTake]
      omega
  | root =>
      have hSecond : ([slash] ++ r)[1]? = r.head? := by simp [List.head?_eq_getElem?]
      have hFirst : ([slash] ++ r)[0]? = some slash := rfl
      rw [hSecond, if_neg (fun hUser => h.root rfl hUser.2.2 hUser.2.1), hFirst, if_pos rfl,
        if_neg (fun hTwo => hRoot rfl hTwo.1)]
      rfl
  | roots =>
      have hThird : ([slash, slash] ++ r)[2]? = r.head? := by simp [List.head?_eq_getElem?]
      have hSecond : ([slash, slash] ++ r)[1]? = some slash := rfl
      have hFirst : ([slash, slash] ++ r)[0]? = some slash := rfl
      rw [hThird, hSecond, if_neg (fun hUser => absurd hUser.2.1 (by decide)), hFirst, if_pos rfl,
        if_pos ⟨rfl, hRoot rfl⟩]
      rfl
  | @user u clean =>
      have hTake := takeWhile_user clean (h.user (by simp [isUser]))
      have hHead : (tilde :: u ++ r)[0]? = some tilde := rfl
      rw [hHead, if_neg (fun hUser => absurd hUser.1 (by decide)), if_neg (by decide), if_pos rfl]
      show 1 + ((u ++ r).takeWhile _).length = u.length + 1
      rw [hTake]
      omega
  | device length noSlash noTilde =>
      have hHead : (p ++ r)[0]? ≠ some slash ∧ (p ++ r)[0]? ≠ some tilde := by
        rcases p with - | ⟨a, p⟩
        · have hEmpty := h.empty rfl
          rw [List.head?_eq_getElem?] at hEmpty
          exact hEmpty
        · exact ⟨noSlash, noTilde⟩
      rw [if_neg (fun hUser => hHead.1 hUser.1), if_neg hHead.1, if_neg hHead.2]
      exact length

/-- The name of a user ends where a slash is. -/
theorem exists_user (s : Bytes) : ∃ u r, s = u ++ r ∧ slash ∉ u
    ∧ (r.head? = none ∨ r.head? = some slash) ∧ s.takeWhile (· ≠ slash) = u := by
  refine ⟨s.takeWhile (· ≠ slash), s.dropWhile (· ≠ slash), List.takeWhile_append_dropWhile.symm,
    fun h => ?_, ?_, rfl⟩
  · have hNot := List.mem_takeWhile_imp h
    simp at hNot
  · have hHead := List.head?_dropWhile_not (· ≠ slash) s
    cases hCase : (s.dropWhile (· ≠ slash)).head? with
    | none => exact .inl rfl
    | some a =>
        rw [hCase] at hHead
        exact .inr (congrArg some (by simpa using hHead))

theorem exists_prefix {path : Bytes} {n : Nat} (h : prefixSize path n ≤ path.length) :
    ∃ p r, path = p ++ r ∧ prefixSize path n = p.length ∧ Prefix n p ∧ Follows n p r := by
  unfold prefixSize at h ⊢
  by_cases hRootUser : path[0]? = some slash ∧ path[1]? = some tilde ∧ n = 1
  · rw [if_pos hRootUser]
    obtain ⟨hFirst, hSecond, hOne⟩ := hRootUser
    rcases path with - | ⟨a, - | ⟨b, path⟩⟩
    · cases hFirst
    · cases hSecond
    · obtain rfl : a = slash := by simpa using hFirst
      obtain rfl : b = tilde := by simpa using hSecond
      obtain ⟨u, r, rfl, hu, hr, hTake⟩ := exists_user path
      refine ⟨slash :: tilde :: u, r, rfl, ?_, .rootUser hu hOne, fun _ => hr, fun hEq => ?_,
        fun hEq => nomatch hEq⟩
      · show 2 + ((u ++ r).takeWhile _).length = u.length + 1 + 1
        rw [hTake]
        omega
      · cases hEq
  · rw [if_neg hRootUser] at h ⊢
    by_cases hRoot : path[0]? = some slash
    · rw [if_pos hRoot] at h ⊢
      rcases path with - | ⟨a, path⟩
      · cases hRoot
      · obtain rfl : a = slash := by simpa using hRoot
        by_cases hTwo : (slash :: path)[1]? = some slash ∧ (slash :: path)[2]? ≠ some slash
        · rw [if_pos hTwo]
          rcases path with - | ⟨b, path⟩
          · cases hTwo.1
          · obtain rfl : b = slash := by simpa using hTwo.1
            exact ⟨[slash, slash], path, rfl, rfl, .roots, fun hUser => absurd hUser (by decide),
              (fun hEq => nomatch hEq), fun hEq => nomatch hEq⟩
        · rw [if_neg hTwo]
          refine ⟨[slash], path, rfl, rfl, .root, fun hUser => absurd hUser (by decide),
            fun _ hOne hTilde => hRootUser ⟨rfl, ?_, hOne⟩, fun hEq => nomatch hEq⟩
          rw [← hTilde, List.head?_eq_getElem?]
          rfl
    · rw [if_neg hRoot] at h ⊢
      by_cases hUser : path[0]? = some tilde
      · rw [if_pos hUser]
        rcases path with - | ⟨a, path⟩
        · cases hUser
        · obtain rfl : a = tilde := by simpa using hUser
          obtain ⟨u, r, rfl, hu, hr, hTake⟩ := exists_user path
          refine ⟨tilde :: u, r, rfl, ?_, .user hu, fun _ => hr, fun hEq => ?_,
            fun hEq => nomatch hEq⟩
          · show 1 + ((u ++ r).takeWhile _).length = u.length + 1
            rw [hTake]
            omega
          · cases hEq
      · rw [if_neg hUser] at h ⊢
        have hHead : ∀ b, (path.take n).head? = some b → path[0]? = some b := by
          intro b hb
          rw [← List.head?_eq_getElem?]
          cases n with
          | zero => cases hb
          | succ n =>
              cases path with
              | nil => cases hb
              | cons a path => exact hb
        have hLength : (path.take n).length = n := by
          rw [List.length_take]
          omega
        refine ⟨path.take n, path.drop n, (List.take_append_drop n path).symm, hLength.symm,
          .device hLength.symm (fun hb => hRoot (hHead _ hb)) (fun hb => hUser (hHead _ hb)),
          fun hIs => ?_, fun hEq => ?_, fun hEq => ?_⟩
        · unfold isUser at hIs
          rw [Bool.or_eq_true, decide_eq_true_eq, decide_eq_true_eq] at hIs
          rcases hIs with hTilde | hTwo
          · exact absurd (hHead _ hTilde) hUser
          · refine absurd (hHead slash ?_) hRoot
            cases hTake : path.take n with
            | nil => rw [hTake] at hTwo; cases hTwo
            | cons a rest =>
                rw [hTake] at hTwo
                exact congrArg some (List.cons.inj hTwo).1
        · exact absurd (hHead slash (by rw [hEq]; rfl)) hRoot
        · rw [hEq] at hLength
          obtain rfl : n = 0 := hLength.symm
          rw [List.drop_zero, List.head?_eq_getElem?]
          exact ⟨hRoot, hUser⟩

/-! ## What a path means -/

def prefixOf (path : Bytes) (n : Nat) : Bytes := path.take (prefixSize path n)

def restOf (path : Bytes) (n : Nat) : Bytes := path.drop (prefixSize path n)

/-- A prefix that neither ends with a root nor is the name of a user. It may be empty. -/
def isDevice (p : Bytes) : Bool := !rooted p && !isUser p

/-- Where a path leads. A device is another place with a slash after it. -/
structure Place where
  base : Bytes
  slashed : Bool
  spot : Spot

def place (path : Bytes) (n : Nat) : Place :=
  let p := prefixOf path n
  let r := restOf path n
  ⟨p, isDevice p && r.head? = some slash, Spot.walk (rooted p) (components r)⟩

/-- `..` where it cannot be avoided, then names, with one slash between any two of these. There
may be a slash at the end, and after a prefix that does not end with one. -/
def Normal (p r : Bytes) : Prop :=
  ∃ (lead : Bool) (w : Spot) (trail : Bytes), r = written lead w.spell ++ trail
    ∧ w.Clean (rooted p) ∧ (trail = [] ∨ trail = [slash])
    ∧ (rooted p = true → lead = false ∧ (w = Spot.here → trail = []))

/-- The path is made normal and leads to the same place, and then nothing is left to do. -/
def Normalises (path : Bytes) (n : Nat) : Prop :=
  place (optimize path n) n = place path n
    ∧ Normal (prefixOf (optimize path n) n) (restOf (optimize path n) n)
    ∧ optimize (optimize path n) n = optimize path n

/-- The first name begins with a tilde. -/
def Tilde (w : Spot) : Prop := w.names.flatten.head? = some tilde

/-- When `Path::Optimize` does what it should. -/
def Kept (path : Bytes) (n : Nat) : Prop :=
  let p := prefixOf path n
  let r := restOf path n
  let cs := components r
  let w := Spot.walk (rooted p) cs
  if rooted p = true then p = [slash] → n = 1 → ¬ Tilde w
  else if r.head? = some slash then isDevice p = true → r.getLast? = some slash ∨ w ≠ Spot.here
  else (r.takeWhile (· ≠ slash) = [dot] → cs.head? ≠ some dots)
    ∧ (p ≠ [] → Cancels cs → w = Spot.here ∧ r.getLast? ≠ some slash)
    ∧ (p = [] → w.ups = 0 → ¬ Tilde w ∧ (Cancels cs → w.names = [] ∧ r.getLast? ≠ some slash))

instance : DecidablePred Cancels := fun cs =>
  decidable_of_iff (∃ m ∈ cs.inits, m ≠ [] ∧ Spot.walk false m = Spot.here) <| by
    unfold Cancels
    simp only [List.mem_inits]
    exact exists_congr fun m => and_left_comm

instance (w : Spot) : Decidable (Tilde w) :=
  inferInstanceAs (Decidable (w.names.flatten.head? = some tilde))

set_option synthInstance.maxSize 512 in
instance (path : Bytes) (n : Nat) : Decidable (Kept path n) :=
  inferInstanceAs (Decidable (ite _ _ _))

/-- A path that is split into its prefix and the rest. -/
structure Splits (path : Bytes) (n : Nat) (p r : Bytes) : Prop where
  path_eq : path = p ++ r
  size : prefixSize path n = p.length
  isPrefix : Prefix n p
  follows : Follows n p r

variable {path r tail : Bytes} {n : Nat} {w : Spot}

theorem Splits.prefixOf (h : Splits path n p r) : prefixOf path n = p := by
  unfold PathOptimize.prefixOf
  rw [h.size, h.path_eq, List.take_left]

theorem Splits.restOf (h : Splits path n p r) : restOf path n = r := by
  unfold PathOptimize.restOf
  rw [h.size, h.path_eq, List.drop_left]

theorem Splits.place (h : Splits path n p r) : place path n
    = ⟨p, isDevice p && r.head? = some slash, Spot.walk (rooted p) (components r)⟩ := by
  unfold PathOptimize.place
  rw [h.prefixOf, h.restOf]

theorem Splits.optimize (h : Splits path n p r) :
    optimize path n = loop p.length p (skip p.getLast? r) := by
  unfold PathOptimize.optimize
  rw [h.size, h.path_eq]
  dsimp only
  rw [List.take_left, List.drop_left]

/-- Another text after the same prefix. -/
theorem Splits.again (h : Splits path n p r) (hFollows : Follows n p tail)
    (hRoot : rooted p = true → tail.head? ≠ some slash) : Splits (p ++ tail) n p tail :=
  ⟨rfl, prefixSize_append h.isPrefix hFollows hRoot, h.isPrefix, hFollows⟩

/-- What has to be shown of the text that is made. -/
theorem Splits.normalises (h : Splits path n p r) (hOut : PathOptimize.optimize path n = p ++ tail)
    (hTail : Splits (p ++ tail) n p tail)
    (hSlash : isDevice p = true → (tail.head? = some slash ↔ r.head? = some slash))
    (hSpot : Spot.walk (rooted p) (components tail) = Spot.walk (rooted p) (components r))
    (hNormal : Normal p tail) (hAgain : PathOptimize.optimize (p ++ tail) n = p ++ tail) :
    Normalises path n := by
  unfold Normalises
  rw [hOut, hTail.place, h.place, hTail.prefixOf, hTail.restOf, hSpot]
  refine ⟨?_, hNormal, hAgain⟩
  cases hDevice : isDevice p with
  | false => rfl
  | true => simp [hSlash hDevice]

/-- What is known of the text that is made, if the place is the same. -/
theorem Splits.of_place (h : Splits path n p r)
    (hOut : PathOptimize.optimize path n = p ++ tail) (hNormalises : Normalises path n) :
    (p ++ tail).take (prefixSize (p ++ tail) n) = p
      ∧ (isDevice p = true → (tail.head? = some slash ↔ r.head? = some slash))
      ∧ Spot.walk (rooted p) (components tail) = Spot.walk (rooted p) (components r) := by
  have hPlace := hNormalises.1
  rw [hOut, h.place] at hPlace
  unfold PathOptimize.place at hPlace
  dsimp only at hPlace
  obtain ⟨hBase, hSlash, hSpot⟩ := Place.mk.inj hPlace
  have hRest : PathOptimize.restOf (p ++ tail) n = tail := by
    have hAll := List.take_append_drop (prefixSize (p ++ tail) n) (p ++ tail)
    rw [show (p ++ tail).take (prefixSize (p ++ tail) n) = p from hBase] at hAll
    exact List.append_cancel_left hAll
  rw [hBase, hRest] at hSlash hSpot
  refine ⟨hBase, fun hDevice => ?_, hSpot⟩
  rw [hDevice] at hSlash
  simpa using hSlash

/-! ### Texts that are made -/

/-- The end of a text. -/
def trailing (b : Bool) : Bytes := if b then [slash] else []

variable {root lead : Bool}

theorem components_tail (hw : w.Clean root) (lead b : Bool) :
    components (written lead w.spell ++ trailing b) = w.spell := by
  cases b with
  | false => simp [trailing, components_written lead hw.components]
  | true => simp [trailing, components_concat_slash, components_written lead hw.components]

theorem getLast?_tail (hw : w.Clean root) (lead b : Bool) :
    (written lead w.spell ++ trailing b).getLast? = some slash ↔ b = true := by
  cases b with
  | true => simp [trailing]
  | false =>
      rw [trailing, if_neg (by decide), List.append_nil]
      refine iff_of_false (fun hLast => ?_) (by decide)
      rcases List.eq_nil_or_concat w.spell with hNil | ⟨cs, c, hSpell⟩
      · rw [hNil] at hLast
        cases hLast
      · rw [List.concat_eq_append] at hSpell
        have hc : Component c := hw.components c (by rw [hSpell]; simp)
        rw [hSpell, written_concat, List.getLast?_append_of_ne_nil _ hc.ne_nil] at hLast
        exact hc.clean (List.mem_of_getLast? hLast)

theorem head?_tail_true (hw : w ≠ Spot.here) (b : Bool) :
    (written true w.spell ++ trailing b).head? = some slash := by
  cases hSpell : w.spell with
  | nil => exact absurd (spell_eq_nil.mp hSpell) hw
  | cons c cs => rfl

theorem head?_tail_false (hw : w.Clean root) (hne : w ≠ Spot.here) (b : Bool) :
    (written false w.spell ++ trailing b).head? = w.spell.flatten.head?
      ∧ w.spell.flatten.head? ≠ some slash := by
  cases hSpell : w.spell with
  | nil => exact absurd (spell_eq_nil.mp hSpell) hne
  | cons c cs =>
      have hc : Component c := hw.components c (by rw [hSpell]; exact List.mem_cons_self)
      rcases c with - | ⟨a, c⟩
      · exact absurd rfl hc.ne_nil
      · refine ⟨rfl, fun hHead => hc.clean ?_⟩
        obtain rfl : a = slash := by simpa using hHead
        exact List.mem_cons_self

/-- A slash before the first component, or after none, and nothing else. -/
theorem head?_tail_iff (hw : w.Clean root) (lead b : Bool) :
    (written lead w.spell ++ trailing b).head? = some slash
      ↔ if w = Spot.here then b = true else lead = true := by
  by_cases hHere : w = Spot.here
  · have hSpell : w.spell = [] := spell_eq_nil.mpr hHere
    rw [if_pos hHere, hSpell]
    cases b <;> simp [written, trailing]
  · rw [if_neg hHere]
    cases lead with
    | true => simp [head?_tail_true hHere]
    | false =>
        obtain ⟨hHead, hNot⟩ := head?_tail_false hw hHere b
        rw [hHead]
        exact iff_of_false hNot (by decide)

theorem walk_tail (hw : w.Clean root) (lead b : Bool) :
    Spot.walk root (components (written lead w.spell ++ trailing b)) = w := by
  rw [components_tail hw, walk_spell hw]

theorem normal_tail (hw : w.Clean (rooted p)) (lead b : Bool)
    (hRoot : rooted p = true → lead = false ∧ (w = Spot.here → b = false)) :
    Normal p (written lead w.spell ++ trailing b) := by
  refine ⟨lead, w, trailing b, rfl, hw, ?_, fun h => ⟨(hRoot h).1, fun hHere => ?_⟩⟩
  · cases b
    · exact .inl rfl
    · exact .inr rfl
  · rw [(hRoot h).2 hHere]
    rfl

/-- What is spelled does not cancel. -/
theorem not_cancels_spell (hw : w.Clean false) : ¬ Cancels w.spell := by
  rintro ⟨m, hm, hPrefix, hWalk⟩
  have hPart : ∃ w' : Spot, w'.Clean false ∧ w'.spell = m := by
    rcases List.prefix_or_prefix_of_prefix hPrefix
      (List.prefix_append (List.replicate w.ups dots) w.names) with hUps | ⟨t, rfl⟩
    · obtain ⟨-, hEq⟩ := List.prefix_replicate_iff.mp hUps
      refine ⟨⟨m.length, []⟩, ⟨fun _ h => absurd h List.not_mem_nil, fun h => nomatch h⟩, ?_⟩
      rw [hEq]
      simp [Spot.spell]
    · have hNames : t <+: w.names := by
        rwa [Spot.spell, List.prefix_append_right_inj] at hPrefix
      exact ⟨⟨w.ups, t⟩, ⟨fun c hc => hw.proper c (hNames.subset hc), fun h => nomatch h⟩, rfl⟩
  obtain ⟨w', hClean, rfl⟩ := hPart
  rw [walk_spell hClean] at hWalk
  exact hm (spell_eq_nil.mpr hWalk)

theorem component_of_mem (h : c ∈ components r) : Component c := by
  obtain ⟨s, cs, hs, hcs, rfl⟩ := exists_segments r
  rw [components_segments hs hcs] at h
  exact component_of_counts (List.forall_mem_cons.mpr ⟨hs, hcs⟩) h

theorem clean_components (root : Bool) (r : Bytes) :
    (Spot.walk root (components r)).Clean root :=
  clean_walk fun _ hc => component_of_mem hc

theorem trailing_decide (q : Prop) [Decidable q] :
    (if q then [slash] else []) = trailing (decide q) := by
  unfold trailing
  by_cases hq : q <;> simp [hq]

/-- The name of a user is no root. -/
theorem open_user (h : Prefix n p) (hUser : isUser p = true) : rooted p = false := by
  have hOpen : ∀ {u : Bytes}, slash ∉ u → (tilde :: u).getLast? ≠ some slash := by
    intro u hu hLast
    rcases List.mem_cons.mp (List.mem_of_getLast? hLast) with hEq | hMem
    · cases hEq
    · exact hu hMem
  rw [← Bool.not_eq_true, rooted_iff]
  cases h with
  | rootUser clean one =>
      rw [List.getLast?_cons_cons]
      exact hOpen clean
  | root => cases hUser
  | roots => cases hUser
  | user clean => exact hOpen clean
  | device length noSlash noTilde =>
      unfold isUser at hUser
      rw [Bool.or_eq_true, decide_eq_true_eq, decide_eq_true_eq] at hUser
      rcases hUser with hTilde | hTwo
      · exact absurd hTilde noTilde
      · rcases p with - | ⟨a, p⟩
        · cases hTwo
        · exact absurd (congrArg some (List.cons.inj hTwo).1) noSlash

/-! ### Paths below a root -/

theorem Splits.normalises_rooted (h : Splits path n p r) (hp : rooted p = true) :
    Normalises path n
      ↔ (p = [slash] → n = 1 → ¬ Tilde (Spot.walk true (components r))) := by
  have hOut := h.optimize.trans (optimize_rooted hp)
  have hClean := clean_components true r
  have hSame : Spot.walk (rooted p) (components r) = Spot.walk true (components r) := by rw [hp]
  rw [trailing_decide, List.append_assoc] at hOut
  generalize Spot.walk true (components r) = w at hOut hClean hSame
  generalize hb : decide (r.getLast? = some slash ∧ w ≠ Spot.here) = b at hOut
  have hBare : w = Spot.here → b = false := by
    intro hHere
    rw [← hb]
    exact decide_eq_false fun hBoth => hBoth.2 hHere
  have hNames : w.spell = w.names := by
    unfold Spot.spell
    rw [hClean.grounded rfl]
    rfl
  have hDevice : isDevice p = false := by simp [isDevice, hp]
  have hSlash : (written false w.spell ++ trailing b).head? ≠ some slash := by
    rw [Ne, head?_tail_iff hClean]
    split_ifs with hHere
    · rw [hBare hHere]
      decide
    · decide
  have hTilde : (written false w.spell ++ trailing b).head? = some tilde ↔ Tilde w := by
    by_cases hHere : w = Spot.here
    · rw [hBare hHere, hHere]
      exact iff_of_false (by decide) (by unfold Tilde; decide)
    · rw [(head?_tail_false hClean hHere b).1, hNames]
      rfl
  constructor
  · rintro hNormalises rfl rfl hIs
    obtain ⟨hBase, -, -⟩ := h.of_place hOut hNormalises
    rw [← hTilde] at hIs
    rcases hTail : written false w.spell ++ trailing b with - | ⟨a, rest⟩
    · rw [hTail] at hIs
      cases hIs
    · rw [hTail] at hIs hBase
      obtain rfl : a = tilde := by simpa using hIs
      -- the text begins like that of a user's directory
      have hTwo : 2 ≤ prefixSize (slash :: tilde :: rest) 1 := by
        unfold prefixSize
        rw [if_pos ⟨rfl, rfl, rfl⟩]
        omega
      have hLength := congrArg List.length hBase
      rw [List.length_take] at hLength
      simp only [List.singleton_append, List.length_cons, List.length_nil] at hLength
      omega
  · intro hNot
    have hFollows : Follows n p (written false w.spell ++ trailing b) := by
      refine ⟨fun hUser => ?_, fun hRoot hOne hIs => hNot hRoot hOne (hTilde.mp hIs),
        fun hNil => ?_⟩
      · rw [open_user h.isPrefix hUser] at hp
        cases hp
      · subst hNil
        cases hp
    have hTail := h.again hFollows fun _ => hSlash
    refine h.normalises hOut hTail (fun hIs => ?_) ?_ ?_ ?_
    · rw [hDevice] at hIs
      cases hIs
    · rw [hSame, hp, walk_tail hClean]
    · refine normal_tail ?_ false b fun _ => ⟨rfl, hBare⟩
      rw [hp]
      exact hClean
    · rw [hTail.optimize, optimize_rooted hp, walk_tail hClean, trailing_decide,
        List.append_assoc]
      refine congrArg (fun t => p ++ (written false w.spell ++ trailing t)) ?_
      rw [Bool.eq_iff_iff, decide_eq_true_eq, getLast?_tail hClean]
      refine ⟨fun hBoth => hBoth.1, fun hTrue => ⟨hTrue, fun hHere => ?_⟩⟩
      rw [hBare hHere] at hTrue
      cases hTrue

/-! ### Paths with a slash after the prefix -/

theorem Splits.normalises_joined (h : Splits path n p r) (hp : rooted p = false)
    (hr : r.head? = some slash) :
    Normalises path n ↔ (isDevice p = true
      → r.getLast? = some slash ∨ Spot.walk false (components r) ≠ Spot.here) := by
  have hne : p ≠ [] := fun hNil => (h.follows.empty hNil).1 hr
  have hOut := h.optimize.trans (optimize_joined hp hne hr)
  have hClean := clean_components false r
  have hSame : Spot.walk (rooted p) (components r) = Spot.walk false (components r) := by rw [hp]
  rw [trailing_decide, List.append_assoc] at hOut
  generalize Spot.walk false (components r) = w at hOut hClean hSame
  have hLast : decide (r.getLast? = some slash) = true ↔ r.getLast? = some slash :=
    decide_eq_true_iff
  generalize decide (r.getLast? = some slash) = b at hOut hLast
  have hHead : (written true w.spell ++ trailing b).head? = some slash
      ↔ r.getLast? = some slash ∨ w ≠ Spot.here := by
    rw [head?_tail_iff hClean]
    split_ifs with hHere
    · simp [hHere, hLast]
    · simp [hHere]
  constructor
  · intro hNormalises hDevice
    obtain ⟨-, hSlash, -⟩ := h.of_place hOut hNormalises
    exact hHead.mp ((hSlash hDevice).mpr hr)
  · intro hKept
    have hShape : written true w.spell ++ trailing b = []
        ∨ (written true w.spell ++ trailing b).head? = some slash := by
      by_cases hAny : r.getLast? = some slash ∨ w ≠ Spot.here
      · exact .inr (hHead.mpr hAny)
      · rw [not_or, not_not] at hAny
        have hFalse : b = false := by
          rw [← Bool.not_eq_true, hLast]
          exact hAny.1
        rw [hAny.2, hFalse]
        exact .inl rfl
    have hFollows : Follows n p (written true w.spell ++ trailing b) := by
      refine ⟨fun _ => hShape.imp_left fun hNil => by rw [hNil]; rfl, fun hRoot => ?_,
        fun hNil => absurd hNil hne⟩
      rw [hRoot] at hp
      cases hp
    have hTail := h.again hFollows fun hRoot => by
      rw [hp] at hRoot
      cases hRoot
    refine h.normalises hOut hTail (fun hIs => iff_of_true (hHead.mpr (hKept hIs)) hr) ?_ ?_ ?_
    · rw [hSame, hp, walk_tail hClean]
    · refine normal_tail ?_ true b fun hRoot => ?_
      · rw [hp]
        exact hClean
      · rw [hp] at hRoot
        cases hRoot
    · rw [hTail.optimize]
      rcases hShape with hNil | hSlash
      · rw [hNil, skip_nil, loop]
        exact (List.append_nil p).symm
      · rw [optimize_joined hp hne hSlash, walk_tail hClean, trailing_decide, List.append_assoc]
        refine congrArg (fun t => p ++ (written true w.spell ++ trailing t)) ?_
        rw [Bool.eq_iff_iff, decide_eq_true_eq, getLast?_tail hClean]

/-! ### Paths that follow their prefix directly -/

theorem ground_eq (h : r.takeWhile (· ≠ slash) = [dot] → (components r).head? ≠ some dots) :
    ground r = components r := by
  unfold ground
  split_ifs with hDot
  · have hHead := h hDot
    cases hComponents : components r with
    | nil => rfl
    | cons c cs =>
        rw [hComponents] at hHead
        exact List.dropWhile_cons_of_neg (by simpa using hHead)
  · rfl

/-- `..` after `.` is lost. -/
theorem ups_lost (hDot : r.takeWhile (· ≠ slash) = [dot])
    (hHead : (components r).head? = some dots) :
    Spot.walk false (ground r) ≠ Spot.walk false (components r) := by
  unfold ground
  rw [if_pos hDot]
  obtain ⟨k, hk⟩ := eq_replicate_append (components r)
  rcases k with - | k
  · cases hComponents : components r with
    | nil =>
        rw [hComponents] at hHead
        cases hHead
    | cons c cs =>
        rw [hComponents] at hHead hk
        obtain rfl : c = dots := by simpa using hHead
        have hLength := congrArg List.length hk
        have hShort := (List.dropWhile_sublist (l := cs) (· = dots)).length_le
        rw [List.dropWhile_cons_of_pos (by simp)] at hLength
        simp at hLength
        omega
  · intro hEq
    have hWalk := walk_replicate (k + 1) ((components r).dropWhile (· = dots))
    rw [← hk] at hWalk
    have hUps := congrArg Spot.ups hEq
    rw [hWalk] at hUps
    dsimp only at hUps
    omega

theorem prefixSize_pos (h : r.head? = some slash ∨ r.head? = some tilde) (n : Nat) :
    0 < prefixSize r n := by
  rw [List.head?_eq_getElem?] at h
  unfold prefixSize
  rcases h with hSlash | hTilde
  · rw [if_pos hSlash]
    split_ifs <;> omega
  · rw [hTilde, if_neg (fun hUser => absurd hUser.1 (by decide)), if_neg (by decide), if_pos rfl]
    omega

/-- A text that is made is left as it is. -/
theorem optimize_tail (hp : rooted p = false) (hw : w.Clean false) {b : Bool}
    (hBare : w = Spot.here → b = false) :
    loop p.length p (skip p.getLast? (written false w.spell ++ trailing b))
      = p ++ (written false w.spell ++ trailing b) := by
  have hHead : (written false w.spell ++ trailing b).head? ≠ some slash := by
    rw [Ne, head?_tail_iff hw]
    split_ifs with hHere
    · rw [hBare hHere]
      decide
    · decide
  have hGround : ground (written false w.spell ++ trailing b) = w.spell := by
    rw [ground_eq, components_tail hw]
    intro hDot
    rw [components_tail hw]
    cases hSpell : w.spell with
    | nil => simp
    | cons c cs =>
        have hc : Component c := hw.components c (by rw [hSpell]; exact List.mem_cons_self)
        have hRest : (hung cs ++ trailing b).head? = none
            ∨ (hung cs ++ trailing b).head? = some slash := by
          cases cs with
          | nil => cases b <;> simp [hung, trailing]
          | cons e es => exact .inr rfl
        rw [hSpell, written_cons, List.append_assoc, takeWhile_user hc.clean hRest] at hDot
        exact absurd hDot hc.ne_dot
  obtain ⟨lead, hLoop, hLead⟩ := optimize_direct hp hHead
  rw [hGround, walk_spell hw] at hLoop hLead
  rw [hLoop, trailing_decide, List.append_assoc]
  by_cases hHere : w = Spot.here
  · have hSpell : w.spell = [] := spell_eq_nil.mpr hHere
    rw [hSpell, hBare hHere]
    simp [written]
  · have hFalse : lead = false := by
      rw [← Bool.not_eq_true, hLead hHere]
      exact fun hBoth => not_cancels_spell hw hBoth.1
    rw [hFalse]
    refine congrArg (fun t => p ++ (written false w.spell ++ trailing t)) ?_
    rw [Bool.eq_iff_iff, decide_eq_true_eq, getLast?_tail hw]
    exact and_iff_right fun hNil => hHere (spell_eq_nil.mp hNil)

theorem isDevice_of (h : Splits path n p r) (hp : rooted p = false) (hr : r.head? ≠ some slash)
    (hne : r ≠ []) : isDevice p = true := by
  unfold isDevice
  rw [hp, Bool.not_false, Bool.true_and, Bool.not_eq_true', ← Bool.not_eq_true]
  intro hUser
  rcases h.follows.user hUser with hNone | hSlash
  · exact hne (List.head?_eq_none_iff.mp hNone)
  · exact hr hSlash

/-- The text that is made of a path that follows its prefix directly. -/
structure Makes (path : Bytes) (n : Nat) (p r : Bytes) (lead b : Bool) : Prop where
  out : optimize path n = p ++ (written lead (Spot.walk false (components r)).spell ++ trailing b)
  trail : b = true ↔ components r ≠ [] ∧ r.getLast? = some slash
  lead_iff : Spot.walk false (components r) ≠ Spot.here → (lead = true ↔
    Cancels (components r) ∧ (p = [] → (Spot.walk false (components r)).ups = 0))

theorem Splits.makes (h : Splits path n p r) (hp : rooted p = false) (hr : r.head? ≠ some slash)
    (hDot : r.takeWhile (· ≠ slash) = [dot] → (components r).head? ≠ some dots) :
    ∃ lead b, Makes path n p r lead b := by
  obtain ⟨lead, hLoop, hLead⟩ := optimize_direct hp hr
  rw [ground_eq hDot] at hLoop hLead
  refine ⟨lead, _, ?_, decide_eq_true_iff, hLead⟩
  rw [h.optimize, hLoop, trailing_decide, List.append_assoc]

theorem head?_made (r : Bytes) (lead b : Bool) :
    (written lead (Spot.walk false (components r)).spell ++ trailing b).head? = some slash
      ↔ if Spot.walk false (components r) = Spot.here then b = true else lead = true :=
  head?_tail_iff (clean_components false r) lead b

/-- After a device, nothing may have got a slash before it. -/
theorem Makes.after_device (h : Makes path n p r lead b) (hne : p ≠ [])
    (hHead : (written lead (Spot.walk false (components r)).spell ++ trailing b).head?
      ≠ some slash) (hCancels : Cancels (components r)) :
    Spot.walk false (components r) = Spot.here ∧ r.getLast? ≠ some slash := by
  rw [Ne, head?_made] at hHead
  split_ifs at hHead with hHere
  · refine ⟨hHere, fun hLast => hHead (h.trail.mpr ⟨?_, hLast⟩)⟩
    obtain ⟨m, hm, hPrefix, -⟩ := hCancels
    exact fun hNil => hm (List.prefix_nil.mp (hNil ▸ hPrefix))
  · exact absurd ((h.lead_iff hHere).mpr ⟨hCancels, fun hNil => absurd hNil hne⟩) hHead

/-- Without a prefix, a slash or a tilde would be one. -/
theorem Makes.after_nothing (h : Makes path n [] r lead b)
    (hUps : (Spot.walk false (components r)).ups = 0)
    (hSlash : (written lead (Spot.walk false (components r)).spell ++ trailing b).head?
      ≠ some slash)
    (hTilde : (written lead (Spot.walk false (components r)).spell ++ trailing b).head?
      ≠ some tilde) :
    ¬ Tilde (Spot.walk false (components r)) ∧ (Cancels (components r) →
      (Spot.walk false (components r)).names = [] ∧ r.getLast? ≠ some slash) := by
  have hClean := clean_components false r
  rw [Ne, head?_made] at hSlash
  have hNames : (Spot.walk false (components r)).spell
      = (Spot.walk false (components r)).names := by
    unfold Spot.spell
    rw [hUps]
    rfl
  by_cases hHere : Spot.walk false (components r) = Spot.here
  · rw [if_pos hHere] at hSlash
    refine ⟨?_, fun hCancels => ⟨by rw [hHere]; rfl, fun hLast => hSlash (h.trail.mpr ⟨?_, hLast⟩)⟩⟩
    · rw [hHere]
      unfold Tilde
      decide
    · obtain ⟨m, hm, hPrefix, -⟩ := hCancels
      exact fun hNil => hm (List.prefix_nil.mp (hNil ▸ hPrefix))
  · rw [if_neg hHere] at hSlash
    refine ⟨fun hIs => hTilde ?_, fun hCancels =>
      absurd ((h.lead_iff hHere).mpr ⟨hCancels, fun _ => hUps⟩) hSlash⟩
    rw [Bool.eq_false_iff.mpr hSlash, (head?_tail_false hClean hHere b).1, hNames]
    exact hIs

theorem Splits.kept_direct (h : Splits path n p r) (hp : rooted p = false)
    (hr : r.head? ≠ some slash) (hNormalises : Normalises path n) :
    (r.takeWhile (· ≠ slash) = [dot] → (components r).head? ≠ some dots)
      ∧ (p ≠ [] → Cancels (components r) →
        Spot.walk false (components r) = Spot.here ∧ r.getLast? ≠ some slash)
      ∧ (p = [] → (Spot.walk false (components r)).ups = 0 →
        ¬ Tilde (Spot.walk false (components r)) ∧ (Cancels (components r) →
          (Spot.walk false (components r)).names = [] ∧ r.getLast? ≠ some slash)) := by
  have hDot : r.takeWhile (· ≠ slash) = [dot] → (components r).head? ≠ some dots := by
    intro hDot hHead
    obtain ⟨lead, hLoop, -⟩ := optimize_direct hp hr
    have hOut := h.optimize.trans hLoop
    rw [trailing_decide, List.append_assoc] at hOut
    obtain ⟨-, -, hSpot⟩ := h.of_place hOut hNormalises
    have hClean : (Spot.walk false (ground r)).Clean false := clean_walk fun c hc => by
      unfold ground at hc
      rw [if_pos hDot] at hc
      exact component_of_mem ((List.dropWhile_sublist _).subset hc)
    rw [hp, walk_tail hClean] at hSpot
    exact ups_lost hDot hHead hSpot
  obtain ⟨lead, b, hMakes⟩ := h.makes hp hr hDot
  obtain ⟨hBase, hSlash, -⟩ := h.of_place hMakes.out hNormalises
  refine ⟨hDot, fun hne hCancels => hMakes.after_device hne (fun hHead => ?_) hCancels,
    fun hNil hUps => ?_⟩
  · have hRest : r ≠ [] := by
      rintro rfl
      obtain ⟨m, hm, hPrefix, -⟩ := hCancels
      exact hm (List.prefix_nil.mp hPrefix)
    exact hr ((hSlash (isDevice_of h hp hr hRest)).mp hHead)
  · subst hNil
    have hFirst : ∀ a, (written lead (Spot.walk false (components r)).spell
        ++ trailing b).head? = some a → ¬(a = slash ∨ a = tilde) := by
      intro a ha hIs
      have hPos := prefixSize_pos (r := written lead (Spot.walk false (components r)).spell
        ++ trailing b) (by rcases hIs with rfl | rfl <;> simp [ha]) n
      rw [List.nil_append] at hBase
      rcases List.take_eq_nil_iff.mp hBase with hZero | hNone
      · omega
      · rw [hNone] at ha
        cases ha
    exact hMakes.after_nothing hUps (fun hHead => hFirst _ hHead (.inl rfl))
      fun hHead => hFirst _ hHead (.inr rfl)

theorem Splits.normalises_direct (h : Splits path n p r) (hp : rooted p = false)
    (hr : r.head? ≠ some slash)
    (hDot : r.takeWhile (· ≠ slash) = [dot] → (components r).head? ≠ some dots)
    (hDevice : p ≠ [] → Cancels (components r) →
      Spot.walk false (components r) = Spot.here ∧ r.getLast? ≠ some slash)
    (hNothing : p = [] → (Spot.walk false (components r)).ups = 0 →
      ¬ Tilde (Spot.walk false (components r)) ∧ (Cancels (components r) →
        (Spot.walk false (components r)).names = [] ∧ r.getLast? ≠ some slash)) :
    Normalises path n := by
  obtain ⟨lead, b, hMakes⟩ := h.makes hp hr hDot
  have hClean := clean_components false r
  have hSame : Spot.walk (rooted p) (components r) = Spot.walk false (components r) := by rw [hp]
  have hOut := hMakes.out
  have hBare : Spot.walk false (components r) = Spot.here → b = false := by
    intro hHere
    rw [← Bool.not_eq_true, hMakes.trail]
    rintro ⟨hne, hLast⟩
    have hCancels : Cancels (components r) := ⟨_, hne, List.prefix_rfl, hHere⟩
    by_cases hNil : p = []
    · exact ((hNothing hNil (by rw [hHere]; rfl)).2 hCancels).2 hLast
    · exact (hDevice hNil hCancels).2 hLast
  have hLead : Spot.walk false (components r) ≠ Spot.here → lead = false := by
    intro hHere
    rw [← Bool.not_eq_true, hMakes.lead_iff hHere]
    rintro ⟨hCancels, hUps⟩
    by_cases hNil : p = []
    · have hNames := ((hNothing hNil (hUps hNil)).2 hCancels).1
      apply hHere
      rw [← spell_eq_nil, Spot.spell, hUps hNil, hNames]
      rfl
    · exact hHere (hDevice hNil hCancels).1
  have hTilde : p = [] → ¬ (Spot.walk false (components r)).spell.flatten.head? = some tilde := by
    intro hNil hIs
    unfold Spot.spell at hIs
    cases hUps : (Spot.walk false (components r)).ups with
    | zero =>
        rw [hUps] at hIs
        exact (hNothing hNil hUps).1 hIs
    | succ k =>
        rw [hUps, List.replicate_succ] at hIs
        cases hIs
  have hEmpty : r = [] → Spot.walk false (components r) = Spot.here := by
    rintro rfl
    rfl
  have hText : written lead (Spot.walk false (components r)).spell
      = written false (Spot.walk false (components r)).spell := by
    by_cases hHere : Spot.walk false (components r) = Spot.here
    · rw [hHere]
      rfl
    · rw [hLead hHere]
  rw [hText] at hOut
  generalize Spot.walk false (components r) = w at hClean hSame hOut hBare hTilde hEmpty
  have hHead : (written false w.spell ++ trailing b).head? ≠ some slash := by
    rw [Ne, head?_tail_iff hClean]
    split_ifs with hHere
    · rw [hBare hHere]
      decide
    · decide
  have hFollows : Follows n p (written false w.spell ++ trailing b) := by
    refine ⟨fun hUser => ?_, fun hRoot => ?_, fun hNil => ⟨hHead, fun hIs => ?_⟩⟩
    · have hNone : r = [] := by
        rcases h.follows.user hUser with hNone | hSlash
        · exact List.head?_eq_none_iff.mp hNone
        · exact absurd hSlash hr
      rw [hBare (hEmpty hNone), hEmpty hNone]
      exact .inl rfl
    · rw [hRoot] at hp
      cases hp
    · by_cases hHere : w = Spot.here
      · rw [hBare hHere, hHere] at hIs
        cases hIs
      · rw [(head?_tail_false hClean hHere b).1] at hIs
        exact hTilde hNil hIs
  have hTail := h.again hFollows fun hRoot => by
    rw [hp] at hRoot
    cases hRoot
  refine h.normalises hOut hTail (fun _ => iff_of_false hHead hr) ?_ ?_ ?_
  · rw [hSame, hp, walk_tail hClean]
  · refine normal_tail ?_ false b fun hRoot => ?_
    · rw [hp]
      exact hClean
    · rw [hp] at hRoot
      cases hRoot
  · rw [hTail.optimize, optimize_tail hp hClean hBare]

/-! ### The condition -/

/-- `Path::Optimize` does what it should, except that a path that is relative to its prefix may
lose it when its first component cancels, that `..` is lost after `.`, and that what is left may
look like the name of a user. -/
theorem optimize_normalises_iff (path : Bytes) (n : Nat) (h : prefixSize path n ≤ path.length) :
    Normalises path n ↔ Kept path n := by
  obtain ⟨p, r, hPath, hSize, hPrefix, hFollows⟩ := exists_prefix h
  have hSplits : Splits path n p r := ⟨hPath, hSize, hPrefix, hFollows⟩
  unfold Kept
  rw [hSplits.prefixOf, hSplits.restOf]
  dsimp only
  cases hp : rooted p with
  | true =>
      rw [if_pos rfl]
      exact hSplits.normalises_rooted hp
  | false =>
      rw [if_neg (by decide)]
      by_cases hr : r.head? = some slash
      · rw [if_pos hr]
        exact hSplits.normalises_joined hp hr
      · rw [if_neg hr]
        exact ⟨hSplits.kept_direct hp hr, fun hKept =>
          hSplits.normalises_direct hp hr hKept.1 hKept.2.1 hKept.2.2⟩

theorem optimize_normalises_dropped :
    Kept (bytes "/usr/./lib/../bin/") 1 ∧ Normalises (bytes "/usr/./lib/../bin/") 1 := by
  have hKept : Kept (bytes "/usr/./lib/../bin/") 1 := by decide +kernel
  exact ⟨hKept, (optimize_normalises_iff _ 1 (by decide +kernel)).mpr hKept⟩

/-- From a place that is `b` beside it to one at the root. -/
theorem not_normalises_absolute : optimize (bytes "a/../b") 0 = bytes "/b"
    ∧ ¬ Normalises (bytes "a/../b") 0 := by
  have hOut : optimize (bytes "a/../b") 0 = bytes "/b" := by decide +kernel
  refine ⟨hOut, fun hNormalises => ?_⟩
  have hBase := congrArg Place.base hNormalises.1
  rw [hOut] at hBase
  revert hBase
  decide +kernel

end Lftp.Ports.PathOptimize
