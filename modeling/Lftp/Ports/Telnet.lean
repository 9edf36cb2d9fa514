import Lftp.Ports.ByteBuffer
import Lftp.Verified.Escapes
import Lftp.Verified.Lines
import Lftp.Verified.Loop

/-!
# The telnet layer

`TelnetEncode` doubles the IAC bytes of what is sent, `TelnetDecode` takes the commands out of
what arrives. A translator is a buffer itself, and the decoder keeps there the beginning of a
command.

* `Has` is the part of `Rep` that matters here, what a buffer has to be read.
* `turn_spec` is a turn of the decoder: while its own buffer is in use it has what is left.
* `telnet_exact`: nothing depends on how the bytes are cut.
-/

namespace Lftp.Ports.Telnet

open Lftp.Verified Lftp.Verified.Escapes
open Lftp.Ports.ByteBuffer

/-- `TELNET_IAC` -/
def iac : UInt8 := 255

/-- `TELNET_WILL`, `TELNET_WONT`, `TELNET_DO` and `TELNET_DONT` -/
def options : List UInt8 := [251, 252, 253, 254]

/-- The translator, where it puts what it has translated, and what is left at `put_buf`. -/
structure Walk where
  own : Buffer
  target : Buffer
  rest : Bytes

/-! ## Sending -/

/-- A turn of `TelnetEncode::PutTranslated`. -/
def encodeTurn (w : Buffer × Bytes) : (Buffer × Bytes) ⊕ Option Buffer :=
  if w.2 = [] then .inr (some w.1)
  else
    match w.2.idxOf? iac with
    | none => .inr (w.1.put w.2)
    | some n =>
      ((w.1.put (w.2.take (n + 1))).bind fun target => target.put [iac]).elim (.inr none)
        fun target => .inl (target, w.2.drop (n + 1))

/-- `TelnetEncode::PutTranslated` -/
def encode (target : Buffer) (s : Bytes) : Option Buffer :=
  (loop encodeTurn (s.length + 1) (target, s)).join

/-! ## Receiving -/

/-- An incomplete sequence is remembered, unless it is in the buffer already. -/
def remember (own : Buffer) (s : Bytes) : Option Buffer :=
  if own.size = 0 then own.put s else some own

/-- Skip a command. -/
def next (w : Walk) (n : Nat) : Walk := { w with own := w.own.skip n, rest := w.rest.drop n }

/-- The `switch` on the byte behind an IAC. -/
def command (w : Walk) : Walk ⊕ Option (Buffer × Buffer) :=
  let stop := (remember w.own w.rest).map fun own => (own, w.target)
  match w.rest with
  | _ :: d :: more =>
    if d ∈ options then
      if more = [] then .inr stop else .inl (next w 3)
    else if d = iac then
      (w.target.put [iac]).elim (.inr none) fun target => .inl (next { w with target } 2)
    else .inl (next w 2)
  | _ => .inr stop

/-- A turn of `TelnetDecode::PutTranslated`. It is left with both buffers. -/
def turn (w : Walk) : Walk ⊕ Option (Buffer × Buffer) :=
  if w.rest = [] then .inr (some (w.own, w.target))
  else
    match w.rest.idxOf? iac with
    | none => .inr ((w.target.put w.rest).map fun target => (w.own.skip w.rest.length, target))
    | some n =>
      (w.target.put (w.rest.take n)).elim (.inr none) fun target =>
        command (next { w with target } n)

/-- `Get`, where the memory has been written. -/
def unread (b : Buffer) : Option Bytes := b.contents.mapM id

/-- `TelnetDecode::PutTranslated` -/
def decode (own target : Buffer) (s : Bytes) : Option (Buffer × Buffer) :=
  if 0 < own.size then do
    let own ← own.put s
    let s ← unread own
    (loop turn (s.length + 1) ⟨own, target, s⟩).join
  else (loop turn (s.length + 1) ⟨own, target, s⟩).join

/-- How bytes come to a decoder. -/
inductive Arrival
  /-- `PutTranslated` -/
  | put (s : Bytes)
  /-- `EmbraceNewData`: the decoder gets them first, then `AppendTranslated` is called. -/
  | embrace (s : Bytes)

def Arrival.bytes : Arrival → Bytes
  | put s => s
  | embrace s => s

/-- What is done with them. -/
def Arrival.run : Arrival → Buffer × Buffer → Option (Buffer × Buffer)
  | put s, b => decode b.1 b.2 s
  | embrace s, b => do
    let own ← b.1.put s
    let after ← decode own b.2 []
    some (after.1, { after.2 with pos := b.2.pos })

/-! ## What a buffer has -/

/-- What is to be read of a buffer. -/
def Has (b : Buffer) (s : Bytes) : Prop := ∃ past, Rep b ⟨past, s⟩

variable {b own target : Buffer} {s t : Bytes}

theorem has_new : Has .new [] := ⟨[], rep_new⟩

theorem Has.put (h : Has b s) (t : Bytes) : ∃ b', b.put t = some b' ∧ Has b' (s ++ t) := by
  obtain ⟨past, hRep⟩ := h
  obtain ⟨b', hPut, hRep'⟩ := put_spec hRep t
  exact ⟨b', hPut, [], hRep'⟩

theorem Has.skip (h : Has b s) (n : Nat) : Has (b.skip n) (s.drop n) := by
  obtain ⟨past, hRep⟩ := h
  exact ⟨_, skip_spec hRep n⟩

theorem Has.skip_nil (h : Has b []) (n : Nat) : Has (b.skip n) [] := by
  have hSkip := h.skip n
  rwa [List.drop_nil] at hSkip

theorem Has.size_eq (h : Has b s) : b.size = s.length := by
  obtain ⟨past, hRep⟩ := h
  exact hRep.size_eq

theorem Has.contents_eq (h : Has b s) : b.contents = s.map some := by
  obtain ⟨past, hRep⟩ := h
  exact hRep.contents_eq

theorem Has.unread_eq (h : Has b s) : unread b = some s := by
  have hRead : ∀ s : Bytes, (s.map some).mapM id = some s := by
    intro s
    induction s with
    | nil => rfl
    | cons c s ih =>
        rw [List.map_cons, List.mapM_cons, ih]
        rfl
  rw [unread, h.contents_eq, hRead]

/-- The position of a buffer does not matter. -/
theorem Has.of_pos (h : Has b s) (pos : Int) : Has { b with pos } s := by
  obtain ⟨past, hRep⟩ := h
  exact ⟨past, hRep.of_buffer_eq rfl rfl⟩

/-! ## The encoder -/

theorem encodeTurn_spec {all : Bytes} {w : Buffer × Bytes}
    (h : ∃ t, Has w.1 t ∧ t ++ double iac w.2 = all) :
    (∃ r, encodeTurn w = .inr r ∧ ∃ b', r = some b' ∧ Has b' all) ∨
      ∃ w', encodeTurn w = .inl w' ∧ (∃ t, Has w'.1 t ∧ t ++ double iac w'.2 = all) ∧
        w'.2.length < w.2.length := by
  obtain ⟨b, rest⟩ := w
  obtain ⟨u, hu, hAll⟩ := h
  dsimp only at hu hAll
  by_cases hNil : rest = []
  · subst hNil
    refine .inl ⟨_, if_pos rfl, b, rfl, ?_⟩
    rwa [← hAll, show double iac [] = [] from rfl, List.append_nil]
  · have hTurn : encodeTurn (b, rest) = _ := if_neg hNil
    dsimp only at hTurn
    cases hFind : rest.idxOf? iac with
    | none =>
        obtain ⟨b', hPut, hb'⟩ := hu.put rest
        have hNot : iac ∉ rest := List.idxOf?_eq_none_iff.mp hFind
        rw [hFind] at hTurn
        refine .inl ⟨_, hTurn, b', hPut, ?_⟩
        rwa [← hAll, double_plains hNot]
    | some n =>
        obtain ⟨p, more, rfl, hp, rfl⟩ := exists_line hFind
        rw [hFind] at hTurn
        have hTake : (p ++ iac :: more).take (p.length + 1) = p ++ [iac] :=
          List.take_length_add_append 1
        have hDrop : (p ++ iac :: more).drop (p.length + 1) = more := by
          rw [← List.drop_drop, List.drop_left]
          rfl
        obtain ⟨b₁, hPut₁, hb₁⟩ := hu.put (p ++ [iac])
        obtain ⟨b₂, hPut₂, hb₂⟩ := hb₁.put [iac]
        dsimp only at hTurn
        rw [hTake, hDrop, hPut₁, Option.bind_some, hPut₂] at hTurn
        have hShorter : more.length < (p ++ iac :: more).length := by
          rw [List.length_append, List.length_cons]
          omega
        refine .inr ⟨_, hTurn, ⟨_, hb₂, ?_⟩, hShorter⟩
        rw [← hAll, double_append, double_plains hp, double_escape]
        simp

theorem encode_spec (h : Has b t) (s : Bytes) :
    ∃ b', encode b s = some b' ∧ Has b' (t ++ double iac s) := by
  have hTotal : ∃ r, loop encodeTurn (s.length + 1) (b, s) = some r ∧
      ∃ b', r = some b' ∧ Has b' (t ++ double iac s) := by
    refine loop_total (I := fun w => ∃ u, Has w.1 u ∧ u ++ double iac w.2 = t ++ double iac s)
      (fun w => w.2.length) ?_ ⟨t, h, rfl⟩ (Nat.lt_succ_self _)
    exact fun w hw => encodeTurn_spec hw
  obtain ⟨r, hLoop, b', rfl, hb'⟩ := hTotal
  exact ⟨b', by rw [encode, hLoop]; rfl, hb'⟩

/-! ## The decoder -/

/-- The stream without its commands, and the beginning of a command that is left. -/
def plain (s : Bytes) : Bytes × Bytes := strip iac (· ∈ options) s

/-- The own buffer of the decoder has what is left, or nothing. -/
def Owns (w : Walk) : Prop := Has w.own w.rest ∨ Has w.own []

/-- The decoder in the loop. The outcome is fixed. -/
def Goal (all left : Bytes) (w : Walk) : Prop :=
  Owns w ∧ ∃ t, Has w.target t ∧ t ++ (plain w.rest).1 = all ∧ (plain w.rest).2 = left

/-- The outcome. -/
def Done (all left : Bytes) (r : Option (Buffer × Buffer)) : Prop :=
  ∃ own target, r = some (own, target) ∧ Has own left ∧ Has target all

/-- A turn leaves with the outcome, or goes on with less. -/
def Turns (all left : Bytes) (w : Walk) (out : Walk ⊕ Option (Buffer × Buffer)) : Prop :=
  (∃ r, out = .inr r ∧ Done all left r) ∨
    ∃ w', out = .inl w' ∧ Goal all left w' ∧ w'.rest.length < w.rest.length

section
variable {all left : Bytes} {w : Walk} {n : Nat}

theorem Owns.next (h : Owns w) (n : Nat) : Owns (next w n) :=
  h.imp (fun h => h.skip n) fun h => h.skip_nil n

theorem Owns.remember (h : Owns w) : ∃ own', remember w.own w.rest = some own' ∧ Has own' w.rest := by
  unfold Telnet.remember
  by_cases hSize : w.own.size = 0
  · have hEmpty : Has w.own [] := by
      rcases h with h | h
      · have hRest := h.size_eq.symm.trans hSize
        rwa [List.eq_nil_of_length_eq_zero hRest] at h
      · exact h
    rw [if_pos hSize]
    exact hEmpty.put w.rest
  · rw [if_neg hSize]
    exact ⟨w.own, rfl, h.resolve_right fun hNil => hSize hNil.size_eq⟩

/-- What is left is kept for the next time. -/
theorem stop_spec (h : Goal all left w) (hStop : plain w.rest = ([], w.rest)) :
    Done all left ((remember w.own w.rest).map fun own => (own, w.target)) := by
  obtain ⟨hOwn, t, hTarget, hAll, hLeft⟩ := h
  obtain ⟨own', hRemember, hOwn'⟩ := hOwn.remember
  rw [hStop] at hAll hLeft
  rw [List.append_nil] at hAll
  subst hAll hLeft
  exact ⟨own', w.target, by rw [hRemember]; rfl, hOwn', hTarget⟩

theorem done_of_nil (h : Goal all left w) (hNil : w.rest = []) :
    Done all left (some (w.own, w.target)) := by
  obtain ⟨hOwn, t, hTarget, hAll, hLeft⟩ := h
  unfold Owns at hOwn
  rw [hNil] at hOwn hAll hLeft
  have hText : t ++ [] = all := hAll
  rw [List.append_nil] at hText
  subst hText
  exact ⟨w.own, w.target, rfl, hLeft ▸ hOwn.elim id id, hTarget⟩

/-- A command is skipped. -/
theorem next_spec (h : Goal all left w) {n : Nat} (hPlain : plain w.rest = plain (w.rest.drop n)) :
    Goal all left (next w n) := by
  obtain ⟨hOwn, t, hTarget, hAll, hLeft⟩ := h
  rw [hPlain] at hAll hLeft
  exact ⟨hOwn.next n, t, hTarget, hAll, hLeft⟩

/-- Text is put, and what it was read from skipped. -/
theorem put_next (h : Goal all left w) {s : Bytes} {n : Nat}
    (hPlain : plain w.rest = (s ++ (plain (w.rest.drop n)).1, (plain (w.rest.drop n)).2)) :
    ∃ target, w.target.put s = some target ∧ Goal all left (next { w with target } n) := by
  obtain ⟨hOwn, t, hTarget, hAll, hLeft⟩ := h
  obtain ⟨target, hPut, hTarget'⟩ := hTarget.put s
  rw [hPlain] at hAll hLeft
  refine ⟨target, hPut, Owns.next (w := { w with target }) hOwn n, _, hTarget', ?_, hLeft⟩
  rw [← hAll, List.append_assoc]
  rfl

theorem length_next (w : Walk) (n : Nat) : (next w n).rest.length = w.rest.length - n :=
  List.length_drop

/-- The turn goes on. -/
theorem turns_next (h : Goal all left (next w n)) (hn : 0 < n) (hNe : w.rest ≠ []) :
    Turns all left w (.inl (next w n)) := by
  have hPos := List.length_pos_of_ne_nil hNe
  exact .inr ⟨_, rfl, h, by rw [length_next]; omega⟩

theorem command_spec (h : Goal all left w) {more : Bytes} (hRest : w.rest = iac :: more) :
    Turns all left w (command w) := by
  obtain ⟨own, target, rest⟩ := w
  dsimp only at hRest
  subst hRest
  have hNe : iac :: more ≠ [] := List.cons_ne_nil _ _
  cases more with
  | nil => exact .inl ⟨_, rfl, stop_spec h strip_cut⟩
  | cons d more =>
      unfold command
      dsimp only
      by_cases hLong : d ∈ options
      · rw [if_pos hLong]
        cases more with
        | nil => exact .inl ⟨_, if_pos rfl, stop_spec h (strip_long_cut (decide_eq_true hLong))⟩
        | cons o more =>
            rw [if_neg (List.cons_ne_nil o more)]
            exact turns_next (next_spec h (strip_long (by exact decide_eq_true hLong) o more)) (by omega) hNe
      · rw [if_neg hLong]
        by_cases hPair : d = iac
        · subst hPair
          obtain ⟨target', hPut, hNext⟩ := put_next h (n := 2) (s := [iac]) (strip_pair rfl more)
          rw [if_pos rfl, hPut]
          exact turns_next hNext (by omega) hNe
        · rw [if_neg hPair]
          exact turns_next (next_spec h (strip_short (by exact decide_eq_false hLong) hPair more)) (by omega) hNe

theorem turn_spec (h : Goal all left w) : Turns all left w (turn w) := by
  unfold turn
  by_cases hNil : w.rest = []
  · rw [if_pos hNil]
    exact .inl ⟨_, rfl, done_of_nil h hNil⟩
  rw [if_neg hNil]
  cases hFind : w.rest.idxOf? iac with
  | none =>
      have hPlain : plain w.rest = (w.rest, []) := by
        have hAll : plain (w.rest ++ []) = (w.rest ++ (plain []).1, (plain []).2) :=
          strip_plains (List.idxOf?_eq_none_iff.mp hFind) []
        rwa [List.append_nil, show plain [] = ([], []) from rfl, List.append_nil] at hAll
      have hDrop : w.rest.drop w.rest.length = [] := List.drop_length
      obtain ⟨target, hPut, hNext⟩ := put_next h (s := w.rest) (n := w.rest.length) (by
        rw [hDrop, hPlain, show plain [] = ([], []) from rfl, List.append_nil])
      refine .inl ⟨_, rfl, ?_⟩
      rw [hPut]
      exact done_of_nil hNext hDrop
  | some n =>
      obtain ⟨p, more, hRest, hp, rfl⟩ := exists_line hFind
      have hTake : w.rest.take p.length = p := by rw [hRest, List.take_left]
      have hDrop : w.rest.drop p.length = iac :: more := by rw [hRest, List.drop_left]
      obtain ⟨target, hPut, hNext⟩ := put_next h (s := p) (n := p.length) (by
        rw [hDrop, hRest]
        exact strip_plains hp _)
      dsimp only
      rw [hTake, hPut]
      rcases command_spec hNext hDrop with ⟨r, hr, hDone⟩ | ⟨w', hw', hGoal, hLess⟩
      · exact .inl ⟨r, hr, hDone⟩
      · exact .inr ⟨w', hw', hGoal, hLess.trans_le (by rw [length_next]; exact Nat.sub_le _ _)⟩

theorem loop_spec (h : Goal all left w) :
    Done all left (loop turn (w.rest.length + 1) w).join := by
  obtain ⟨r, hLoop, hDone⟩ := loop_total (I := Goal all left) (fun w => w.rest.length)
    (fun _ => turn_spec) h (Nat.lt_succ_self _)
  rw [hLoop]
  exact hDone

end

/-- What is read is that of the stream, what stays in the decoder the beginning of a command. -/
theorem decode_spec (hOwn : Has own t) (hTarget : Has target s) (new : Bytes) :
    Done (s ++ (plain (t ++ new)).1) (plain (t ++ new)).2 (decode own target new) := by
  unfold decode
  by_cases hSize : 0 < own.size
  · obtain ⟨own', hPut, hOwn'⟩ := hOwn.put new
    simp only [if_pos hSize, hPut, Option.bind_eq_bind, Option.bind_some, hOwn'.unread_eq]
    exact loop_spec (w := ⟨own', target, t ++ new⟩) ⟨.inl hOwn', s, hTarget, rfl, rfl⟩
  · have hNil : t = [] := List.eq_nil_of_length_eq_zero (by rw [← hOwn.size_eq]; omega)
    subst hNil
    rw [if_neg hSize]
    exact loop_spec (w := ⟨own, target, new⟩) ⟨.inr hOwn, s, hTarget, rfl, rfl⟩

theorem arrival_spec (hOwn : Has own t) (hTarget : Has target s) (a : Arrival) :
    Done (s ++ (plain (t ++ a.bytes)).1) (plain (t ++ a.bytes)).2 (a.run (own, target)) := by
  cases a with
  | put new => exact decode_spec hOwn hTarget new
  | embrace new =>
      obtain ⟨own', hPut, hOwn'⟩ := hOwn.put new
      obtain ⟨own'', target', hDecode, hLeft, hAll⟩ := decode_spec hOwn' hTarget []
      rw [List.append_nil] at hLeft hAll
      refine ⟨own'', _, ?_, hLeft, hAll.of_pos target.pos⟩
      rw [Arrival.run, hPut, Option.bind_eq_bind, Option.bind_some, hDecode]
      rfl

/-- A whole run: what was read does not depend on how the bytes arrive. -/
theorem arrivals_spec (as : List Arrival) (hOwn : Has own t) (hTarget : Has target s)
    (hWait : plain t = ([], t)) :
    Done (s ++ (plain (t ++ as.flatMap Arrival.bytes)).1) (plain (t ++ as.flatMap Arrival.bytes)).2
      (as.foldlM (fun b a => a.run b) (own, target)) := by
  induction as generalizing own target s t with
  | nil =>
      rw [List.flatMap_nil, List.append_nil, hWait, List.append_nil]
      exact ⟨own, target, rfl, hOwn, hTarget⟩
  | cons a as ih =>
      obtain ⟨own', target', hRun, hLeft, hAll⟩ := arrival_spec hOwn hTarget a
      have hRest := ih hLeft hAll (strip_left _)
      have hAppend : plain (t ++ a.bytes ++ as.flatMap Arrival.bytes) = _ := strip_append _ _ _ _
      rw [List.foldlM_cons, hRun, List.flatMap_cons, ← List.append_assoc, hAppend,
        ← List.append_assoc]
      exact hRest

theorem puts_spec (puts : List Bytes) (h : Has b t) :
    ∃ b', puts.foldlM encode b = some b' ∧ Has b' (t ++ double iac puts.flatten) := by
  induction puts generalizing b t with
  | nil => exact ⟨b, rfl, by rwa [List.flatten_nil, show double iac [] = [] from rfl, List.append_nil]⟩
  | cons s puts ih =>
      obtain ⟨b', hEncode, hb'⟩ := encode_spec h s
      rw [List.foldlM_cons, hEncode, List.flatten_cons, double_append, ← List.append_assoc]
      exact ih hb'

/-! ## Both ends -/

/-- However the text is put and however it arrives, it is read as it was. -/
def Transparent (puts : List Bytes) : Prop :=
  ∃ wire sent, puts.foldlM encode .new = some wire ∧ wire.contents = sent.map some ∧
    ∀ as : List Arrival, as.flatMap Arrival.bytes = sent →
      ∃ own target, as.foldlM (fun b a => a.run b) (.new, .new) = some (own, target) ∧
        target.contents = puts.flatten.map some

/-- What is read of a stream is the stream without its commands. -/
def Strips (as : List Arrival) : Prop :=
  ∃ own target, as.foldlM (fun b a => a.run b) (.new, .new) = some (own, target) ∧
    target.contents = (plain (as.flatMap Arrival.bytes)).1.map some

theorem strips (as : List Arrival) : Strips as := by
  obtain ⟨own, target, hRun, -, hAll⟩ := arrivals_spec as has_new has_new rfl
  exact ⟨own, target, hRun, hAll.contents_eq⟩

theorem telnet_exact (puts : List Bytes) (as : List Arrival) : Transparent puts ∧ Strips as := by
  refine ⟨?_, strips as⟩
  obtain ⟨wire, hPuts, hWire⟩ := puts_spec puts has_new
  refine ⟨wire, double iac puts.flatten, hPuts, hWire.contents_eq, fun as hArrive => ?_⟩
  obtain ⟨own, target, hRun, hContents⟩ := strips as
  refine ⟨own, target, hRun, ?_⟩
  rw [hContents, hArrive, plain, strip_double rfl]

end Lftp.Ports.Telnet
