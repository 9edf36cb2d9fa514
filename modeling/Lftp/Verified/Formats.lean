import Lftp.Verified.Tokens

/-!
# Formats of `sscanf`

A format is a list of directives. Each conversion has a place for its value, and `sscanf` fills the
places as far as the text goes along with the format and counts them.

`sscanf_keeps`: what every place keeps holds however far the text goes along.
-/

namespace Lftp.Verified

variable {σ : Type}

/-- A directive, where a conversion puts its value into `σ`. -/
inductive Directive (σ : Type)
  | space
  | lit (c : UInt8)
  | int (put : Int → σ → σ)
  | digits (width : Nat) (put : Int → σ → σ)
  | word (width : Nat) (put : Bytes → σ → σ)
  | among (p : UInt8 → Bool)

/-- `%5s`: a word, as far as the place holds it. -/
def scanWord (width : Nat) (s : Bytes) : Option (Bytes × Bytes) :=
  let s := skipSpace s
  let w := (s.takeWhile fun c => !isSpace c).take width
  if w = [] then none else some (w, s.drop w.length)

/-- A directive: what is left, and the places; no value where the text does not go along. -/
def Directive.scan (d : Directive σ) (s : Bytes) (v : σ) : Option (Bytes × σ) :=
  match d with
  | .space => some (skipSpace s, v)
  | .lit c => (scanLit [c] s).map fun s => (s, v)
  | .int put => (scanInt s).map fun (n, s) => (s, put n v)
  | .digits width put => (scanWidth width s).map fun (n, s) => (s, put n v)
  | .word width put => (scanWord width s).map fun (w, s) => (s, put w v)
  | .among p => if s.takeWhile p = [] then none else some (s.dropWhile p, v)

/-- Whether it counts. -/
def Directive.counts : Directive σ → Bool
  | .int _ | .digits _ _ | .word _ _ => true
  | _ => false

/-- The directives that are left. -/
def scanAll : List (Directive σ) → Bytes → Nat → σ → Nat × σ
  | [], _, n, v => (n, v)
  | d :: format, s, n, v =>
    match d.scan s v with
    | none => (n, v)
    | some (s, v) => scanAll format s (if d.counts then n + 1 else n) v

/-- `sscanf`. -/
def sscanf (s : Bytes) (format : List (Directive σ)) (v : σ) : Nat × σ :=
  scanAll format s 0 v

/-- The place of a directive keeps `P`. -/
def Directive.Keeps (P : σ → Prop) : Directive σ → Prop
  | .int put => ∀ n v, P v → P (put n v)
  | .digits _ put => ∀ n v, P v → P (put n v)
  | .word width put => ∀ w v, w.length ≤ width → P v → P (put w v)
  | _ => True

theorem length_scanWord {width : Nat} {s w t : Bytes} (h : scanWord width s = some (w, t)) :
    w.length ≤ width := by
  unfold scanWord at h
  dsimp only at h
  split at h
  · cases h
  · obtain ⟨rfl, -⟩ := Prod.mk.inj (Option.some.inj h)
    exact List.length_take_le _ _

theorem Directive.Keeps.scan {P : σ → Prop} {d : Directive σ} (h : d.Keeps P)
    {s s' : Bytes} {v v' : σ} (hScan : d.scan s v = some (s', v')) (hv : P v) : P v' := by
  cases d with
  | space =>
      cases hScan
      exact hv
  | lit c =>
      obtain ⟨t, -, hEq⟩ := Option.map_eq_some_iff.mp hScan
      cases hEq
      exact hv
  | int put =>
      obtain ⟨⟨n, t⟩, -, hEq⟩ := Option.map_eq_some_iff.mp hScan
      cases hEq
      exact h n v hv
  | digits width put =>
      obtain ⟨⟨n, t⟩, -, hEq⟩ := Option.map_eq_some_iff.mp hScan
      cases hEq
      exact h n v hv
  | word width put =>
      obtain ⟨⟨w, t⟩, hWord, hEq⟩ := Option.map_eq_some_iff.mp hScan
      cases hEq
      exact h w v (length_scanWord hWord) hv
  | among p =>
      unfold Directive.scan at hScan
      dsimp only at hScan
      split at hScan
      · cases hScan
      · cases hScan
        exact hv

theorem scanAll_keeps {P : σ → Prop} {format : List (Directive σ)}
    (h : ∀ d ∈ format, d.Keeps P) {s : Bytes} {n : Nat} {v : σ} (hv : P v) :
    P (scanAll format s n v).2 := by
  induction format generalizing s n v with
  | nil => exact hv
  | cons d format ih =>
      rw [scanAll]
      cases hScan : d.scan s v with
      | none => exact hv
      | some r =>
          have hNext : P r.2 := (h d List.mem_cons_self).scan hScan hv
          exact ih (fun e he => h e (List.mem_cons_of_mem d he)) hNext

/-- What every place keeps holds however far the text goes along. -/
theorem sscanf_keeps {P : σ → Prop} {format : List (Directive σ)} (h : ∀ d ∈ format, d.Keeps P)
    (s : Bytes) {v : σ} (hv : P v) : P (sscanf s format v).2 :=
  scanAll_keeps h hv

end Lftp.Verified
