import Lftp.Verified.Lexical

/-!
# Where a relative path leads

From a place that is not a root a path may climb: a `Spot` is so many levels up, and from there
down along some names. From a root, `..` stays there. `components` are what counts of a path:
neither empty nor `.`.

* `Spot.walk_spell`: the components that `Spot.spell` gives lead to the spot.
* `components_written`: components that are written with slashes between them are read back.
* `Spot.walk_replicate`: what climbs first leads as much higher.
-/

namespace Lftp.Verified.Relative

open Lftp.Verified.Lexical (slash dot Proper)

def dots : Bytes := [dot, dot]

/-- What counts of a path. -/
def components (p : Bytes) : List Bytes := (p.splitOn slash).filter fun c => c ≠ [] ∧ c ≠ [dot]

/-- A component is `..`, or it goes down. -/
def Component (c : Bytes) : Prop := c = dots ∨ Proper c

structure Spot where
  ups : Nat
  names : List Bytes
  deriving DecidableEq

namespace Spot

def here : Spot := ⟨0, []⟩

def step (rooted : Bool) (w : Spot) (c : Bytes) : Spot :=
  if c = dots then
    if w.names ≠ [] then { w with names := w.names.dropLast }
    else if rooted then w else { w with ups := w.ups + 1 }
  else { w with names := w.names ++ [c] }

/-- Where the components lead. -/
def walk (rooted : Bool) (cs : List Bytes) : Spot := cs.foldl (step rooted) here

/-- The shortest components that lead to the spot. -/
def spell (w : Spot) : List Bytes := List.replicate w.ups dots ++ w.names

/-- A spot that components can lead to. -/
structure Clean (rooted : Bool) (w : Spot) : Prop where
  proper : ∀ c ∈ w.names, Proper c
  grounded : rooted = true → w.ups = 0

end Spot

open Spot

variable {rooted : Bool} {w : Spot} {c p q : Bytes} {cs : List Bytes}



theorem Component.ne_nil (h : Component c) : c ≠ [] := by
  rcases h with rfl | h
  · decide
  · exact h.ne_nil

theorem Component.ne_dot (h : Component c) : c ≠ [dot] := by
  rcases h with rfl | h
  · decide
  · exact h.ne_dot

theorem Component.clean (h : Component c) : slash ∉ c := by
  rcases h with rfl | h
  · decide
  · exact h.clean

theorem component_of (hNil : c ≠ []) (hDot : c ≠ [dot]) (hClean : slash ∉ c) : Component c := by
  by_cases hDots : c = dots
  · exact .inl hDots
  · exact .inr ⟨hNil, hDot, hDots, hClean⟩

/-! ## Components of a text -/

theorem components_slash (p q : Bytes) :
    components (p ++ slash :: q) = components p ++ components q := by
  unfold components
  rw [List.splitOn_append_cons_self, List.filter_append]

@[simp] theorem components_nil : components [] = [] := rfl

theorem components_clean (h : slash ∉ c) :
    components c = if c ≠ [] ∧ c ≠ [dot] then [c] else [] := by
  unfold components
  rw [List.splitOn_eq_singleton h, List.filter_cons]
  simp

theorem components_component (h : Component c) : components c = [c] := by
  rw [components_clean h.clean, if_pos ⟨h.ne_nil, h.ne_dot⟩]

theorem components_head_slash (p : Bytes) : components (slash :: p) = components p :=
  components_slash [] p

/-- Components with a slash before each. -/
def hung (cs : List Bytes) : Bytes := cs.flatMap fun c => slash :: c

theorem components_append_hung (h : slash ∉ p) (hcs : ∀ c ∈ cs, slash ∉ c) :
    components (p ++ hung cs) = components p ++ cs.filter fun c => c ≠ [] ∧ c ≠ [dot] := by
  induction cs generalizing p with
  | nil => simp [hung]
  | cons c cs ih =>
      have hc := hcs c List.mem_cons_self
      have hRest := ih hc fun d hd => hcs d (List.mem_cons_of_mem c hd)
      have hText : p ++ hung (c :: cs) = p ++ slash :: (c ++ hung cs) := by simp [hung]
      rw [hText, components_slash, hRest, components_clean hc, List.filter_cons]
      by_cases hCounts : c ≠ [] ∧ c ≠ [dot]
      · rw [if_pos hCounts, if_pos (decide_eq_true hCounts)]
        rfl
      · rw [if_neg hCounts, if_neg (by simpa using hCounts)]
        rfl

/-- Components with slashes between them, and one before them if `lead`. -/
def written (lead : Bool) : List Bytes → Bytes
  | [] => []
  | c :: cs => (if lead then [slash] else []) ++ c ++ hung cs

theorem hung_concat (cs : List Bytes) (c : Bytes) : hung (cs ++ [c]) = hung cs ++ slash :: c := by
  simp [hung]

/-- What stands between the first components and the last one. -/
def separator (lead : Bool) (cs : List Bytes) : Bytes :=
  if lead = false ∧ cs = [] then [] else [slash]

theorem written_concat (lead : Bool) (cs : List Bytes) (c : Bytes) :
    written lead (cs ++ [c]) = written lead cs ++ separator lead cs ++ c := by
  cases cs with
  | nil => cases lead <;> simp [written, separator, hung]
  | cons d ds =>
      have hSeparator : separator lead (d :: ds) = [slash] := if_neg (by simp)
      rw [hSeparator]
      simp [written, hung_concat]

theorem components_written (lead : Bool) (h : ∀ c ∈ cs, Component c) :
    components (written lead cs) = cs := by
  cases cs with
  | nil => rfl
  | cons c cs =>
      have hc := h c List.mem_cons_self
      have hRest : ∀ d ∈ cs, Component d := fun d hd => h d (List.mem_cons_of_mem c hd)
      have hAll : (cs.filter fun c => c ≠ [] ∧ c ≠ [dot]) = cs :=
        List.filter_eq_self.mpr fun d hd =>
          decide_eq_true ⟨(hRest d hd).ne_nil, (hRest d hd).ne_dot⟩
      have hText : components (c ++ hung cs) = c :: cs := by
        rw [components_append_hung hc.clean fun d hd => (hRest d hd).clean,
          components_component hc, hAll]
        rfl
      cases lead with
      | false => exact hText
      | true =>
          show components (slash :: (c ++ hung cs)) = _
          rw [components_head_slash]
          exact hText

/-- Text after the last component that does not count. -/
theorem components_concat_slash (p : Bytes) : components (p ++ [slash]) = components p := by
  rw [components_slash, components_nil, List.append_nil]

/-! ## Spots -/

theorem step_name (h : Proper c) (rooted : Bool) (w : Spot) :
    step rooted w c = { w with names := w.names ++ [c] } :=
  if_neg h.ne_dots

theorem step_dots_name (h : w.names ≠ []) (rooted : Bool) :
    step rooted w dots = { w with names := w.names.dropLast } := by
  unfold step
  rw [if_pos rfl, if_pos h]

theorem step_dots_root (h : w.names = []) : step true w dots = w := by
  unfold step
  rw [if_pos rfl, if_neg (not_not.mpr h), if_pos rfl]

theorem step_dots_up (h : w.names = []) : step false w dots = { w with ups := w.ups + 1 } := by
  unfold step
  rw [if_pos rfl, if_neg (not_not.mpr h)]
  rfl

theorem Spot.Clean.step (hw : Clean rooted w) (hc : Component c) :
    Clean rooted (Spot.step rooted w c) := by
  rcases hc with rfl | hProper
  · by_cases hNames : w.names = []
    · cases rooted with
      | true =>
          rw [step_dots_root hNames]
          exact hw
      | false =>
          rw [step_dots_up hNames]
          exact ⟨hw.proper, fun h => absurd h (by decide)⟩
    · rw [step_dots_name hNames]
      exact ⟨fun d hd => hw.proper d (List.dropLast_subset _ hd), hw.grounded⟩
  · rw [step_name hProper]
    refine ⟨fun d hd => ?_, hw.grounded⟩
    rcases List.mem_append.mp hd with hOld | hNew
    · exact hw.proper d hOld
    · rw [List.mem_singleton.mp hNew]
      exact hProper

theorem clean_here (rooted : Bool) : Clean rooted here :=
  ⟨fun _ hc => absurd hc List.not_mem_nil, fun _ => rfl⟩

theorem clean_walk (h : ∀ c ∈ cs, Component c) : Clean rooted (walk rooted cs) := by
  unfold walk
  have hFrom : ∀ w, Clean rooted w → Clean rooted (cs.foldl (Spot.step rooted) w) := by
    induction cs with
    | nil => exact fun w hw => hw
    | cons c cs ih =>
        exact fun w hw => ih (fun d hd => h d (List.mem_cons_of_mem c hd)) _
          (hw.step (h c List.mem_cons_self))
  exact hFrom here (clean_here rooted)

theorem Spot.Clean.components (hw : Clean rooted w) : ∀ c ∈ w.spell, Component c := by
  intro c hc
  rcases List.mem_append.mp hc with hUp | hName
  · exact .inl (List.eq_of_mem_replicate hUp)
  · exact .inr (hw.proper c hName)

theorem spell_eq_nil : w.spell = [] ↔ w = here := by
  constructor
  · intro h
    obtain ⟨hUps, hNames⟩ := List.append_eq_nil_iff.mp h
    cases w with
    | mk ups names =>
        obtain rfl : names = [] := hNames
        obtain rfl : ups = 0 := by simpa using hUps
        rfl
  · rintro rfl
    rfl

theorem spell_name (w : Spot) (c : Bytes) :
    ({ w with names := w.names ++ [c] } : Spot).spell = w.spell ++ [c] :=
  (List.append_assoc ..).symm

theorem spell_up (h : w.names = []) :
    ({ w with ups := w.ups + 1 } : Spot).spell = w.spell ++ [dots] := by
  unfold Spot.spell
  dsimp only
  rw [h, List.append_nil, List.append_nil, List.replicate_succ']

theorem spell_dropLast (h : w.names ≠ []) :
    ({ w with names := w.names.dropLast } : Spot).spell ++ [w.names.getLast h] = w.spell := by
  unfold Spot.spell
  dsimp only
  rw [List.append_assoc, List.dropLast_concat_getLast]

theorem spell_ups (h : w.names = []) (hw : w ≠ here) : ∃ cs, w.spell = cs ++ [dots] := by
  obtain ⟨ups, names⟩ := w
  obtain rfl : names = [] := h
  cases ups with
  | zero => exact absurd rfl hw
  | succ n => exact ⟨List.replicate n dots, by simp [Spot.spell, List.replicate_succ']⟩

theorem walk_append (rooted : Bool) (cs ds : List Bytes) :
    walk rooted (cs ++ ds) = ds.foldl (Spot.step rooted) (walk rooted cs) :=
  List.foldl_append

theorem foldl_names (h : ∀ c ∈ cs, Proper c) (rooted : Bool) (w : Spot) :
    cs.foldl (Spot.step rooted) w = { w with names := w.names ++ cs } := by
  induction cs generalizing w with
  | nil => simp
  | cons c cs ih =>
      rw [List.foldl_cons, step_name (h c List.mem_cons_self),
        ih (fun d hd => h d (List.mem_cons_of_mem c hd))]
      simp

theorem foldl_ups (n : Nat) (w : Spot) (h : w.names = []) :
    (List.replicate n dots).foldl (Spot.step false) w = { w with ups := w.ups + n } := by
  induction n generalizing w with
  | zero => rfl
  | succ n ih =>
      have hUp : ({ w with ups := w.ups + 1 } : Spot).names = [] := h
      rw [List.replicate_succ, List.foldl_cons, step_dots_up h, ih _ hUp]
      simp [Nat.add_comm, Nat.add_left_comm]

/-- The components of a spot lead to it. -/
theorem walk_spell (hw : Clean rooted w) : walk rooted w.spell = w := by
  unfold Spot.spell
  rw [walk_append, foldl_names hw.proper]
  cases rooted with
  | true =>
      have hUps := hw.grounded rfl
      cases w
      subst hUps
      rfl
  | false =>
      unfold walk
      rw [foldl_ups _ _ rfl]
      cases w
      simp [here]

/-- What climbs first leads as much higher. -/
theorem walk_replicate (n : Nat) (cs : List Bytes) :
    walk false (List.replicate n dots ++ cs)
      = { walk false cs with ups := (walk false cs).ups + n } := by
  have hShift : ∀ w : Spot, cs.foldl (Spot.step false) { w with ups := w.ups + n }
      = { cs.foldl (Spot.step false) w with ups := (cs.foldl (Spot.step false) w).ups + n } := by
    induction cs with
    | nil => exact fun w => rfl
    | cons c cs ih =>
        intro w
        have hOne : Spot.step false { w with ups := w.ups + n } c
            = { Spot.step false w c with ups := (Spot.step false w c).ups + n } := by
          unfold Spot.step
          dsimp only
          split_ifs <;> simp [Nat.add_right_comm]
        rw [List.foldl_cons, hOne, ih, List.foldl_cons]
  rw [walk_append]
  unfold walk
  rw [foldl_ups _ _ rfl]
  exact hShift here

theorem walk_replicate_root (n : Nat) (cs : List Bytes) :
    walk true (List.replicate n dots ++ cs) = walk true cs := by
  rw [walk_append]
  unfold walk
  have hStay : (List.replicate n dots).foldl (Spot.step true) here = here := by
    induction n with
    | zero => rfl
    | succ n ih => rw [List.replicate_succ, List.foldl_cons, step_dots_root rfl, ih]
  rw [hStay]

end Lftp.Verified.Relative
