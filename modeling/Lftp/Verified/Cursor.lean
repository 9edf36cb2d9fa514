import Lftp.Verified.BigEndian
import Mathlib.Algebra.Order.Ring.Int

/-!
# Reading fields at a cursor

A reader of a binary format moves a cursor over a buffer, up to a limit. Offsets
are 32-bit integers. The cursor keeps its moves, and with each how many bytes of
the buffer were looked at from where it started.

* `Forward`: what a reader looks at lies between where it started and the limit,
  and every move goes on from there.
* `Reads u s a`: where the buffer goes on with `s`, the reader `u` gives `a` and
  moves over just `s`.

Both are built up with the reader: there is one rule for each way to compose.
-/

namespace Lftp.Verified

/-- A 32-bit integer. -/
def int32 (x : Int) : Int := x.bmod (2 ^ 32)

theorem int32_of_range {x : Int} (hLo : -2 ^ 31 ≤ x) (hHi : x < 2 ^ 31) : int32 x = x :=
  Int.bmod_eq_of_le (by omega) (by omega)

attribute [irreducible] int32

/-- A move of the cursor over `size` bytes, `looked` of which were looked at. -/
structure Move where
  start : Int
  size : Int
  looked : Int

structure Cursor where
  offset : Int
  moves : List Move

/-- A reader, on a buffer and with a limit. -/
def Reader (ε α : Type) : Type := Bytes → Int → Cursor → Except ε (α × Cursor)

namespace Reader

variable {ε α β : Type}

instance : Monad (Reader ε) where
  pure a := fun _ _ c => .ok (a, c)
  bind u f := fun b limit c =>
    match u b limit c with
    | .ok (a, c) => f a b limit c
    | .error e => .error e

def fail (e : ε) : Reader ε α := fun _ _ _ => .error e

/-- The reader goes on when `p` holds. -/
def require (p : Prop) [Decidable p] (e : ε) : Reader ε Unit := if p then pure () else fail e

/-- Something is left below the limit. -/
def more : Reader ε Bool := fun _ limit c => .ok (decide (c.offset < limit), c)

/-- A field that is there when `p` holds. -/
def given (p : Prop) [Decidable p] (absent : α) (u : Reader ε α) : Reader ε α :=
  if p then u else pure absent

/-- A field that is repeated `n` times. -/
def times (u : Reader ε α) : Nat → Reader ε (List α)
  | 0 => pure []
  | n + 1 => do
    let a ← u
    let l ← times u n
    pure (a :: l)

theorem bind_ok {u : Reader ε α} {f : α → Reader ε β} {b : Bytes} {limit : Int} {c c' : Cursor}
    {r : β} (h : (u >>= f) b limit c = .ok (r, c')) :
    ∃ a c₁, u b limit c = .ok (a, c₁) ∧ f a b limit c₁ = .ok (r, c') := by
  change (match u b limit c with
    | .ok (a, c) => f a b limit c
    | .error e => .error e) = _ at h
  cases hu : u b limit c with
  | error e =>
      rw [hu] at h
      cases h
  | ok p =>
      rw [hu] at h
      exact ⟨p.1, p.2, rfl, h⟩

theorem bind_eq {u : Reader ε α} {f : α → Reader ε β} {b : Bytes} {limit : Int} {c c' : Cursor}
    {a : α} (h : u b limit c = .ok (a, c')) : (u >>= f) b limit c = f a b limit c' := by
  show (match u b limit c with
    | .ok (a, c) => f a b limit c
    | .error e => .error e) = _
  rw [h]

end Reader

/-! ## Moving forward -/

/-- Moves that go on from `lo` to `hi`, none of which looks beyond itself. -/
def Onward : Int → List Move → Int → Prop
  | lo, [], hi => lo ≤ hi
  | lo, m :: ms, hi =>
    lo ≤ m.start ∧ 0 ≤ m.looked ∧ m.looked ≤ m.size ∧ Onward (m.start + m.size) ms hi

theorem Onward.append {lo mid hi : Int} {l m : List Move} (hl : Onward lo l mid)
    (hm : Onward mid m hi) : Onward lo (l ++ m) hi := by
  induction l generalizing lo with
  | nil =>
      cases m with
      | nil => exact le_trans hl hm
      | cons a m => exact ⟨le_trans hl hm.1, hm.2⟩
  | cons a l ih => exact ⟨hl.1, hl.2.1, hl.2.2.1, ih hl.2.2.2⟩

theorem Onward.le {lo hi : Int} {l : List Move} (h : Onward lo l hi) : lo ≤ hi := by
  induction l generalizing lo with
  | nil => exact h
  | cons a l ih =>
      obtain ⟨hStart, hLooked, hSize, hRest⟩ := h
      have hLe := ih hRest
      omega

/-- What is looked at on the way. -/
theorem Onward.inside {lo hi : Int} {l : List Move} (h : Onward lo l hi) :
    ∀ m ∈ l, lo ≤ m.start ∧ 0 ≤ m.looked ∧ m.start + m.looked ≤ hi := by
  induction l generalizing lo with
  | nil => nofun
  | cons a l ih =>
      obtain ⟨hStart, hLooked, hSize, hRest⟩ := h
      have hLe := hRest.le
      intro m hm
      rcases List.mem_cons.mp hm with rfl | hm
      · exact ⟨hStart, hLooked, by omega⟩
      · obtain ⟨hLo, hSome, hHi⟩ := ih hRest m hm
        exact ⟨by omega, hSome, hHi⟩

/-- From one cursor to another, below the limit. -/
structure Cursor.Leads (c c' : Cursor) (limit : Int) : Prop where
  below : c'.offset ≤ limit
  moves : ∃ new, c'.moves = c.moves ++ new ∧ Onward c.offset new c'.offset

theorem Cursor.Leads.refl {c : Cursor} {limit : Int} (h : c.offset ≤ limit) : c.Leads c limit :=
  ⟨h, [], (List.append_nil _).symm, show c.offset ≤ c.offset from le_rfl⟩

theorem Cursor.Leads.trans {c c₁ c₂ : Cursor} {limit : Int} (h : c.Leads c₁ limit)
    (h' : c₁.Leads c₂ limit) : c.Leads c₂ limit := by
  obtain ⟨new, hMoves, hOn⟩ := h.moves
  obtain ⟨new', hMoves', hOn'⟩ := h'.moves
  exact ⟨h'.below, new ++ new', by rw [hMoves', hMoves, List.append_assoc], hOn.append hOn'⟩

theorem Cursor.Leads.le {c c' : Cursor} {limit : Int} (h : c.Leads c' limit) :
    c.offset ≤ c'.offset := by
  obtain ⟨new, -, hOn⟩ := h.moves
  exact hOn.le

/-- A reader that moves forward, when the limit is a 32-bit integer. -/
def Forward {ε α : Type} (u : Reader ε α) : Prop :=
  ∀ b limit c a c', 0 ≤ c.offset → c.offset ≤ limit → limit < 2 ^ 31 →
    u b limit c = .ok (a, c') → c.Leads c' limit

namespace Forward

variable {ε α β : Type}

theorem pure (a : α) : Forward (Pure.pure a : Reader ε α) := by
  intro b limit c r c' _ hLe _ h
  cases h
  exact .refl hLe

theorem bind {u : Reader ε α} {f : α → Reader ε β} (hu : Forward u) (hf : ∀ a, Forward (f a)) :
    Forward (u >>= f) := by
  intro b limit c r c' hPos hLe hLimit h
  obtain ⟨a, c₁, hFirst, hRest⟩ := Reader.bind_ok h
  have hLeads := hu b limit c a c₁ hPos hLe hLimit hFirst
  exact hLeads.trans (hf a b limit c₁ r c' (hPos.trans hLeads.le) hLeads.below hLimit hRest)

theorem fail (e : ε) : Forward (Reader.fail e : Reader ε α) := by
  intro b limit c r c' _ _ _ h
  cases h

theorem more : Forward (Reader.more : Reader ε Bool) := by
  intro b limit c r c' _ hLe _ h
  cases h
  exact .refl hLe

theorem ite {p : Prop} [Decidable p] {u v : Reader ε α} (hu : Forward u) (hv : Forward v) :
    Forward (if p then u else v) := by
  split
  · exact hu
  · exact hv

theorem require (p : Prop) [Decidable p] (e : ε) : Forward (Reader.require p e) :=
  .ite (.pure ()) (.fail e)

theorem given (p : Prop) [Decidable p] (absent : α) {u : Reader ε α} (hu : Forward u) :
    Forward (Reader.given p absent u) :=
  hu.ite (.pure absent)

theorem times {u : Reader ε α} (hu : Forward u) (n : Nat) : Forward (Reader.times u n) := by
  induction n with
  | zero => exact .pure []
  | succ n ih => exact hu.bind fun a => ih.bind fun l => .pure (a :: l)

end Forward

/-! ## Reading back -/

/-- Where the buffer goes on with `s`, below the limit, the reader gives `a` and
moves over `s`. -/
def Reads {ε α : Type} (u : Reader ε α) (s : Bytes) (a : α) : Prop :=
  ∀ pre post limit moves, (pre ++ (s ++ post)).length < 2 ^ 31 → limit < 2 ^ 31 →
    (pre.length + s.length : Int) ≤ limit →
    ∃ moves', u (pre ++ (s ++ post)) limit ⟨pre.length, moves⟩
      = .ok (a, ⟨pre.length + s.length, moves'⟩)

namespace Reads

variable {ε α β : Type}

theorem pure (a : α) : Reads (Pure.pure a : Reader ε α) [] a := fun pre post limit moves _ _ _ =>
  ⟨moves, by simp [Pure.pure]⟩

theorem bind {u : Reader ε α} {f : α → Reader ε β} {s t : Bytes} {a : α} {r : β}
    (hu : Reads u s a) (hf : Reads (f a) t r) : Reads (u >>= f) (s ++ t) r := by
  intro pre post limit moves hSize hLimit hLe
  rw [List.length_append, Nat.cast_add] at hLe
  have hSame : pre ++ (s ++ t ++ post) = pre ++ (s ++ (t ++ post)) := by
    rw [List.append_assoc]
  have hSame' : pre ++ (s ++ (t ++ post)) = (pre ++ s) ++ (t ++ post) := (List.append_assoc ..).symm
  obtain ⟨moves₁, hFirst⟩ := hu pre (t ++ post) limit moves (hSame ▸ hSize) hLimit (by omega)
  obtain ⟨moves₂, hRest⟩ := hf (pre ++ s) post limit moves₁ (by rw [← hSame', ← hSame]; exact hSize)
    hLimit (by rw [List.length_append, Nat.cast_add]; omega)
  refine ⟨moves₂, ?_⟩
  rw [hSame, Reader.bind_eq hFirst, hSame']
  rw [List.length_append, Nat.cast_add] at hRest
  rw [hRest, List.length_append, Nat.cast_add, Int.add_assoc]

/-- A reader gives one result. -/
theorem unique {u : Reader ε α} {s : Bytes} {a b : α} (ha : Reads u s a) (hb : Reads u s b)
    (hSize : s.length < 2 ^ 31) : a = b := by
  have hBuffer : ([] ++ (s ++ []) : Bytes).length < 2 ^ 31 := by simpa using hSize
  obtain ⟨moves, hA⟩ := ha [] [] s.length [] hBuffer (by omega) (by simp)
  obtain ⟨moves', hB⟩ := hb [] [] s.length [] hBuffer (by omega) (by simp)
  rw [hA] at hB
  exact (Prod.mk.inj (Except.ok.inj hB)).1

theorem map {u : Reader ε α} {f : α → β} {s : Bytes} {a : α} (hu : Reads u s a) :
    Reads (u >>= fun a => Pure.pure (f a)) s (f a) := by
  have hBind := hu.bind (f := fun a => Pure.pure (f a)) (.pure (f a))
  rwa [List.append_nil] at hBind

theorem require {p : Prop} [Decidable p] {e : ε} (h : p) : Reads (Reader.require p e) [] () := by
  rw [Reader.require, if_pos h]
  exact .pure ()

theorem map_eq {u : Reader ε α} {f : α → β} {s : Bytes} {a : α} {b : β} (hu : Reads u s a)
    (h : f a = b) : Reads (u >>= fun a => Pure.pure (f a)) s b :=
  h ▸ hu.map

/-- A field that is there under the same condition as when it was written. -/
theorem given {p q : Prop} [Decidable p] [Decidable q] {absent a : α} {u : Reader ε α} {s : Bytes}
    (hpq : p ↔ q) (hu : q → Reads u s a) :
    Reads (Reader.given p absent u) (if q then s else []) (if q then a else absent) := by
  unfold Reader.given
  by_cases h : q
  · rw [if_pos h, if_pos h, if_pos (hpq.mpr h)]
    exact hu h
  · rw [if_neg h, if_neg h, if_neg (mt hpq.mp h)]
    exact .pure absent

theorem given_pair {p q : Prop} [Decidable p] [Decidable q] {absent a : α} {absent' b : β}
    {u : Reader ε (α × β)} {s : Bytes} (hpq : p ↔ q) (hu : q → Reads u s (a, b)) :
    Reads (Reader.given p (absent, absent') u) (if q then s else [])
      (if q then a else absent, if q then b else absent') := by
  have hReads : Reads (Reader.given p (absent, absent') u) _ _ := Reads.given hpq hu
  by_cases h : q
  · simpa only [if_pos h] using hReads
  · simpa only [if_neg h] using hReads

theorem times {u : Reader ε α} {pack : α → Bytes} {l : List α} (hu : ∀ a ∈ l, Reads u (pack a) a) :
    Reads (Reader.times u l.length) (l.flatMap pack) l := by
  induction l with
  | nil => exact .pure []
  | cons a l ih =>
      rw [List.flatMap_cons]
      exact (hu a List.mem_cons_self).bind
        (map (f := fun l => a :: l) (ih fun a ha => hu a (List.mem_cons_of_mem _ ha)))

end Reads

end Lftp.Verified
