import Lftp.Ports.FtpListInfo
import Mathlib.Data.List.Nodup

/-!
# The facts of an MLSD line

What `ParseFtpLongList_MLSD` makes of a line of facts, each with its semicolon, a space
and a name. Every fact has one `effect` on the variables of the parser, and effects on
different variables commute.

* `parse_line`: the line is split into its facts and its name.
* `info_eq`: the record that is made in the end.
* `commutes_iff`: when the order of the facts does not matter. `Perm` and `UNIX.mode` are
  stored in one variable, and neither looks at what the other has stored.
-/

namespace Lftp.Ports.FtpListInfo

open Lftp.Verified Lftp.Ports.FileSets
open Lftp.Ports.ParseCmd (toLower)
open Lftp.Ports.Ftp (startsNoCase)

/-! ## Lines -/

/-- A byte of a fact: no semicolon, no blank and no end of a line or of a string. -/
def FactByte (c : UInt8) : Prop := c ∉ bytes "; \t\r\n" ∧ c ≠ 0

structure Fact where
  name : Bytes
  value : Bytes
  name_ne : name ≠ []
  name_byte : ∀ c ∈ name, FactByte c ∧ c ≠ ch '='
  value_byte : ∀ c ∈ value, FactByte c
deriving DecidableEq

namespace Fact

def text (f : Fact) : Bytes := f.name ++ ch '=' :: f.value

/-- Names of facts are the same in either letter case. -/
def key (f : Fact) : List Nat := f.name.map toLower

def named (f : Fact) (name : Bytes) : Bool := sameNoCase f.name name

theorem named_iff {f : Fact} {name : Bytes} : f.named name = true ↔ f.key = name.map toLower :=
  decide_eq_true_iff

theorem text_byte (f : Fact) : ∀ c ∈ f.text, FactByte c := by
  intro c hc
  rw [text, List.mem_append, List.mem_cons] at hc
  rcases hc with hc | rfl | hc
  · exact (f.name_byte c hc).1
  · exact ⟨by decide, by decide⟩
  · exact f.value_byte c hc

theorem text_ne (f : Fact) : f.text ≠ [] :=
  List.append_ne_nil_of_right_ne_nil _ (List.cons_ne_nil _ _)

end Fact

/-- The line of the facts and the name. -/
def lineText (facts : List Fact) (name : Bytes) : Bytes :=
  (facts.flatMap fun f => f.text ++ [ch ';']) ++ ch ' ' :: name

theorem lineText_eq {facts : List Fact} (hNe : facts ≠ []) (name : Bytes) :
    lineText facts name
      = [ch ';'].intercalate (facts.map Fact.text) ++ (bytes "; " ++ name) := by
  unfold lineText
  induction facts with
  | nil => exact absurd rfl hNe
  | cons f facts ih =>
      cases facts with
      | nil => simp [bytes]
      | cons g facts =>
          have hTail := ih (List.cons_ne_nil g facts)
          rw [List.flatMap_cons, List.append_assoc, hTail]
          simp [List.intercalate, List.append_assoc]

theorem notMem_intercalate {facts : List Fact} {c : UInt8} (hc : c ≠ ch ';')
    (hByte : ¬ FactByte c) : c ∉ [ch ';'].intercalate (facts.map Fact.text) := by
  refine notMem_join (fun h => hc (List.mem_singleton.mp h)) fun e he hMem => ?_
  obtain ⟨f, -, rfl⟩ := List.mem_map.mp he
  exact hByte (f.text_byte c hMem)

/-- A line of facts is split into them and the name. -/
theorem parse_line (env : Env) {facts : List Fact} (hNe : facts ≠ []) (name : Bytes) :
    parseFtpLongListMLSD env (lineText facts name)
      = if name = [] ∨ (facts.foldl (fun v f => mlsdFact env v f.text) mlsdInit).type = .unknown
        then none
        else some (some ((facts.foldl (fun v f => mlsdFact env v f.text) mlsdInit).info name)) := by
  have hFree : CutFree (bytes "; ") ([ch ';'].intercalate (facts.map Fact.text))
      (bytes "; " ++ name) := by
    intro a b hSplit hb
    have hSpace : ch ' ' ∉ [ch ';'].intercalate (facts.map Fact.text) :=
      notMem_intercalate (by decide) fun h => h.1 (by decide)
    rw [← hSplit, List.mem_append, not_or] at hSpace
    rcases b with _ | ⟨c, _ | ⟨d, b⟩⟩
    · exact absurd rfl hb
    · simp [bytes, List.isPrefixOf]
      exact fun _ => by decide
    · have hNext : d ≠ ch ' ' := fun h => hSpace.2 (h ▸ by simp)
      simp [bytes, List.isPrefixOf, Ne.symm hNext]
  have hTokens : tokens (ch ';') ([ch ';'].intercalate (facts.map Fact.text))
      = facts.map Fact.text := by
    apply tokens_joined
    intro w hw
    obtain ⟨f, -, rfl⟩ := List.mem_map.mp hw
    exact ⟨f.text_ne, fun h => (f.text_byte _ h).1 (by decide)⟩
  rw [parseFtpLongListMLSD, lineText_eq hNe, cut_append (by decide) hFree, Option.some_or]
  show (if name = [] ∨ _ then _ else _) = _
  rw [hTokens, List.foldl_map]

/-! ## Effects -/

/-- What a fact does to the variables. -/
inductive Effect
  | type (t : FileType)
  | date (t : Int)
  | size (n : Int)
  | perm (p : Int)
  | mode (m : Int)
  | owner (o : Bytes)
  | group (g : Bytes)
  | uid (u : Bytes)
  | gid (g : Bytes)
  | nothing

def Effect.apply (v : Mlsd) : Effect → Mlsd
  | .type t => { v with type := t }
  | .date t => { v with date := t }
  | .size n => { v with size := n }
  | .perm p => { v with perms := p }
  | .mode m => { v with perms := m }
  | .owner o => { v with owner := some o }
  | .group g => { v with group := some g }
  | .uid u => { v with owner := v.owner.or (some u) }
  | .gid g => { v with group := v.group.or (some g) }
  | .nothing => v

/-- The value of a `Type` fact that the parser knows. -/
def typeOf (value : Bytes) : Option FileType :=
  if sameNoCase value (bytes "cdir") || sameNoCase value (bytes "pdir")
      || sameNoCase value (bytes "dir") then some .directory
  else if sameNoCase value (bytes "file") then some .normal
  else if sameNoCase value (bytes "OS.unix=symlink") then some .symlink
  else none

/-- The mode of a `Perm` fact. -/
def permOf (value : Bytes) : Int :=
  Int.ofNat (value.foldl (fun perms c => perms ||| permLetter c) 0)

/-- The mode of a `UNIX.mode` fact. -/
def modeOf (value : Bytes) : Int := (scanOctal value).getD (-1)

def effect (env : Env) (f : Fact) : Effect :=
  if f.named (bytes "Type") then (typeOf f.value).elim .nothing .type
  else if f.named (bytes "Modify") then .date (convertFtpDate env f.value)
  else if f.named (bytes "Size") then (scanLong f.value).elim .nothing fun n => .size n.1
  else if f.named (bytes "Perm") then .perm (permOf f.value)
  else if f.named (bytes "UNIX.mode") then .mode (modeOf f.value)
  else if f.named (bytes "UNIX.owner") then .owner f.value
  else if f.named (bytes "UNIX.group") then .group f.value
  else if f.named (bytes "UNIX.uid") then .uid f.value
  else if f.named (bytes "UNIX.gid") then .gid f.value
  else .nothing

/-- Only an equals sign is one in the other letter case. -/
theorem toLower_eq {c : UInt8} (h : toLower c = toLower (ch '=')) : c = ch '=' := by
  have hEq : toLower (ch '=') = 61 := rfl
  rw [hEq] at h
  unfold toLower at h
  rw [← UInt8.toNat_inj]
  show c.toNat = 61
  split at h
  · rename_i hUpper
    rw [Bool.and_eq_true, decide_eq_true_eq, decide_eq_true_eq] at hUpper
    omega
  · exact h

/-- Two texts that begin with a name and an equals sign begin with the same name. -/
theorem map_name_eq {a b x y : Bytes} (ha : ch '=' ∉ a) (hb : ch '=' ∉ b) :
    ((a ++ ch '=' :: x).map toLower = (b ++ ch '=' :: y).map toLower)
      ↔ a.map toLower = b.map toLower ∧ x.map toLower = y.map toLower := by
  induction a generalizing b with
  | nil =>
      cases b with
      | nil => simp
      | cons d b =>
          rw [List.mem_cons, not_or] at hb
          have hNe : toLower (ch '=') ≠ toLower d := fun h => hb.1 (toLower_eq h.symm).symm
          simp [hNe]
  | cons c a ih =>
      rw [List.mem_cons, not_or] at ha
      cases b with
      | nil =>
          have hNe : toLower c ≠ toLower (ch '=') := fun h => ha.1 (toLower_eq h).symm
          simp [hNe]
      | cons d b =>
          rw [List.mem_cons, not_or] at hb
          have hTail := ih ha.2 hb.2
          simp only [List.cons_append, List.map_cons, List.cons.injEq, hTail, and_assoc]

theorem Fact.notMem_name (f : Fact) : ch '=' ∉ f.name := fun h => (f.name_byte _ h).2 rfl

/-- A whole fact. -/
theorem sameNoCase_text (f : Fact) {name : Bytes} (hName : ch '=' ∉ name) (value : Bytes) :
    sameNoCase f.text (name ++ ch '=' :: value) = (f.named name && sameNoCase f.value value) := by
  unfold Fact.named sameNoCase Fact.text
  rw [← Bool.decide_and, decide_eq_decide]
  exact map_name_eq f.notMem_name hName

/-- The name of a fact with its equals sign. -/
theorem startsNoCase_text (f : Fact) {name : Bytes} (hName : ch '=' ∉ name) :
    startsNoCase (name ++ [ch '=']) f.text = f.named name := by
  unfold startsNoCase Fact.named sameNoCase
  rw [decide_eq_decide]
  constructor
  · intro h
    have hText : f.text.map toLower
        = (name ++ ch '=' :: f.text.drop (name ++ [ch '=']).length).map toLower := by
      conv_lhs => rw [← List.take_append_drop (name ++ [ch '=']).length f.text, List.map_append, h,
        ← List.map_append, List.append_assoc]
      rfl
    exact ((map_name_eq f.notMem_name hName).mp hText).1
  · intro h
    have hLength : f.name.length = name.length := by
      have := congrArg List.length h
      rwa [List.length_map, List.length_map] at this
    have hTake : f.text.take (name ++ [ch '=']).length = f.name ++ [ch '='] := by
      rw [Fact.text, List.length_append, ← hLength, List.length_singleton,
        ← List.singleton_append, ← List.append_assoc]
      exact List.take_left' (by simp)
    rw [hTake, List.map_append, List.map_append, h]

theorem drop_text (f : Fact) {name : Bytes} (h : f.named name = true) :
    f.text.drop (name.length + 1) = f.value := by
  have hLength := congrArg List.length (Fact.named_iff.mp h)
  rw [Fact.key, List.length_map, List.length_map] at hLength
  rw [Fact.text, ← hLength, ← List.singleton_append, ← List.append_assoc]
  exact List.drop_left' (by simp)

/-- A fact has one name. -/
theorem named_unique {f : Fact} {a b : Bytes} (ha : f.named a = true)
    (hNe : a.map toLower ≠ b.map toLower) : f.named b = false := by
  rw [Bool.eq_false_iff]
  intro hb
  exact hNe ((Fact.named_iff.mp ha).symm.trans (Fact.named_iff.mp hb))

/-- A turn of the loop has the effect of its fact. -/
theorem mlsdFact_text (env : Env) (v : Mlsd) (f : Fact) :
    mlsdFact env v f.text = (effect env f).apply v := by
  have hWhole : ∀ value, sameNoCase f.text (bytes "Type" ++ ch '=' :: value)
      = (f.named (bytes "Type") && sameNoCase f.value value) := sameNoCase_text f (by decide)
  have hStart : ∀ name, ch '=' ∉ name → startsNoCase (name ++ [ch '=']) f.text = f.named name :=
    fun name hName => startsNoCase_text f hName
  unfold mlsdFact effect
  rw [show bytes "Type=cdir" = bytes "Type" ++ ch '=' :: bytes "cdir" from rfl,
    show bytes "Type=pdir" = bytes "Type" ++ ch '=' :: bytes "pdir" from rfl,
    show bytes "Type=dir" = bytes "Type" ++ ch '=' :: bytes "dir" from rfl,
    show bytes "Type=file" = bytes "Type" ++ ch '=' :: bytes "file" from rfl,
    show bytes "Type=OS.unix=symlink" = bytes "Type" ++ ch '=' :: bytes "OS.unix=symlink" from rfl,
    hWhole, hWhole, hWhole, hWhole, hWhole,
    show bytes "Modify=" = bytes "Modify" ++ [ch '='] from rfl,
    show bytes "Size=" = bytes "Size" ++ [ch '='] from rfl,
    show bytes "Perm=" = bytes "Perm" ++ [ch '='] from rfl,
    show bytes "UNIX.mode=" = bytes "UNIX.mode" ++ [ch '='] from rfl,
    show bytes "UNIX.owner=" = bytes "UNIX.owner" ++ [ch '='] from rfl,
    show bytes "UNIX.group=" = bytes "UNIX.group" ++ [ch '='] from rfl,
    show bytes "UNIX.uid=" = bytes "UNIX.uid" ++ [ch '='] from rfl,
    show bytes "UNIX.gid=" = bytes "UNIX.gid" ++ [ch '='] from rfl,
    hStart _ (by decide), hStart _ (by decide), hStart _ (by decide), hStart _ (by decide),
    hStart _ (by decide), hStart _ (by decide), hStart _ (by decide), hStart _ (by decide)]
  cases hType : f.named (bytes "Type") with
  | true =>
      have hOther : ∀ name, (bytes "Type").map toLower ≠ name.map toLower →
          f.named name = false := fun name => named_unique hType
      simp only [Bool.true_and, if_true, typeOf, hOther (bytes "Modify") (by decide),
        hOther (bytes "Size") (by decide), hOther (bytes "Perm") (by decide),
        hOther (bytes "UNIX.mode") (by decide), hOther (bytes "UNIX.owner") (by decide),
        hOther (bytes "UNIX.group") (by decide), hOther (bytes "UNIX.uid") (by decide),
        hOther (bytes "UNIX.gid") (by decide), Bool.false_eq_true, if_false]
      split_ifs <;> rfl
  | false =>
      simp only [Bool.false_and, Bool.or_self, Bool.false_eq_true, if_false]
      split
      · rename_i hName
        rw [show f.text.drop 7 = f.value from drop_text f hName]
        rfl
      split
      · rename_i hName
        rw [show f.text.drop 5 = f.value from drop_text f hName]
        cases scanLong f.value <;> rfl
      split
      · rename_i hName
        rw [show f.text.drop 5 = f.value from drop_text f hName]
        rfl
      split
      · rename_i hName
        rw [show f.text.drop 10 = f.value from drop_text f hName]
        rfl
      split
      · rename_i hName
        rw [show f.text.drop 11 = f.value from drop_text f hName]
        rfl
      split
      · rename_i hName
        rw [show f.text.drop 11 = f.value from drop_text f hName]
        rfl
      split
      · rename_i hName
        rw [show f.text.drop 9 = f.value from drop_text f hName]
        rfl
      split
      · rename_i hName
        rw [show f.text.drop 9 = f.value from drop_text f hName]
        rfl
      · rfl

/-- The name of the facts with an effect. -/
def Effect.name : Effect → Option Bytes
  | .type _ => some (bytes "Type")
  | .date _ => some (bytes "Modify")
  | .size _ => some (bytes "Size")
  | .perm _ => some (bytes "Perm")
  | .mode _ => some (bytes "UNIX.mode")
  | .owner _ => some (bytes "UNIX.owner")
  | .group _ => some (bytes "UNIX.group")
  | .uid _ => some (bytes "UNIX.uid")
  | .gid _ => some (bytes "UNIX.gid")
  | .nothing => none

theorem effect_named {env : Env} {f : Fact} {name : Bytes}
    (h : (effect env f).name = some name) : f.named name = true := by
  unfold effect at h
  split at h
  · rename_i hName
    cases hType : typeOf f.value with
    | none =>
        rw [hType] at h
        cases h
    | some t =>
        rw [hType] at h
        cases h
        exact hName
  split at h
  · rename_i hName
    cases h
    exact hName
  split at h
  · rename_i hName
    cases hSize : scanLong f.value with
    | none =>
        rw [hSize] at h
        cases h
    | some n =>
        rw [hSize] at h
        cases h
        exact hName
  all_goals
    repeat' split at h
    all_goals cases h
    all_goals assumption

theorem effect_of_type (env : Env) {f : Fact} (h : f.named (bytes "Type") = true) :
    effect env f = (typeOf f.value).elim .nothing .type := by
  simp only [effect, h, if_true]

theorem effect_of_size (env : Env) {f : Fact} (h : f.named (bytes "Size") = true) :
    effect env f = (scanLong f.value).elim .nothing fun n => .size n.1 := by
  have hOther : ∀ name, (bytes "Size").map toLower ≠ name.map toLower → f.named name = false :=
    fun name => named_unique h
  simp only [effect, h, hOther (bytes "Type") (by decide), hOther (bytes "Modify") (by decide),
    Bool.false_eq_true, if_false, if_true]

theorem effect_of_perm (env : Env) {f : Fact} (h : f.named (bytes "Perm") = true) :
    effect env f = .perm (permOf f.value) := by
  have hOther : ∀ name, (bytes "Perm").map toLower ≠ name.map toLower → f.named name = false :=
    fun name => named_unique h
  simp only [effect, h, hOther (bytes "Type") (by decide), hOther (bytes "Modify") (by decide),
    hOther (bytes "Size") (by decide), Bool.false_eq_true, if_false, if_true]

theorem effect_of_mode (env : Env) {f : Fact} (h : f.named (bytes "UNIX.mode") = true) :
    effect env f = .mode (modeOf f.value) := by
  have hOther : ∀ name, (bytes "UNIX.mode").map toLower ≠ name.map toLower → f.named name = false :=
    fun name => named_unique h
  simp only [effect, h, hOther (bytes "Type") (by decide), hOther (bytes "Modify") (by decide),
    hOther (bytes "Size") (by decide), hOther (bytes "Perm") (by decide), Bool.false_eq_true,
    if_false, if_true]

theorem effect_of_owner (env : Env) {f : Fact} (h : f.named (bytes "UNIX.owner") = true) :
    effect env f = .owner f.value := by
  have hOther : ∀ name, (bytes "UNIX.owner").map toLower ≠ name.map toLower → f.named name = false :=
    fun name => named_unique h
  simp only [effect, h, hOther (bytes "Type") (by decide), hOther (bytes "Modify") (by decide),
    hOther (bytes "Size") (by decide), hOther (bytes "Perm") (by decide),
    hOther (bytes "UNIX.mode") (by decide), Bool.false_eq_true, if_false, if_true]

theorem effect_of_group (env : Env) {f : Fact} (h : f.named (bytes "UNIX.group") = true) :
    effect env f = .group f.value := by
  have hOther : ∀ name, (bytes "UNIX.group").map toLower ≠ name.map toLower → f.named name = false :=
    fun name => named_unique h
  simp only [effect, h, hOther (bytes "Type") (by decide), hOther (bytes "Modify") (by decide),
    hOther (bytes "Size") (by decide), hOther (bytes "Perm") (by decide),
    hOther (bytes "UNIX.mode") (by decide), hOther (bytes "UNIX.owner") (by decide),
    Bool.false_eq_true, if_false, if_true]

/-- Effects of facts with different names commute, but for two modes that differ. -/
theorem apply_comm {e₁ e₂ : Effect} (hName : e₁.name = none ∨ e₁.name ≠ e₂.name)
    (h₁ : ∀ p m, e₁ = .perm p → e₂ = .mode m → p = m)
    (h₂ : ∀ p m, e₂ = .perm p → e₁ = .mode m → p = m) (v : Mlsd) :
    e₂.apply (e₁.apply v) = e₁.apply (e₂.apply v) := by
  cases e₁ with
  | nothing => rfl
  | perm p =>
      cases e₂ with
      | perm => exact absurd rfl (hName.resolve_left nofun)
      | mode m =>
          rw [h₁ p m rfl rfl]
          rfl
      | _ => rfl
  | mode m =>
      cases e₂ with
      | mode => exact absurd rfl (hName.resolve_left nofun)
      | perm p =>
          rw [h₂ p m rfl rfl]
          rfl
      | _ => rfl
  | type => cases e₂ <;> first | rfl | exact absurd rfl (hName.resolve_left nofun)
  | date => cases e₂ <;> first | rfl | exact absurd rfl (hName.resolve_left nofun)
  | size => cases e₂ <;> first | rfl | exact absurd rfl (hName.resolve_left nofun)
  | owner => cases e₂ <;> first | rfl | exact absurd rfl (hName.resolve_left nofun)
  | group => cases e₂ <;> first | rfl | exact absurd rfl (hName.resolve_left nofun)
  | uid => cases e₂ <;> first | rfl | exact absurd rfl (hName.resolve_left nofun)
  | gid => cases e₂ <;> first | rfl | exact absurd rfl (hName.resolve_left nofun)

/-- The variables after all facts. -/
def folded (env : Env) (facts : List Fact) : Mlsd :=
  facts.foldl (fun v f => (effect env f).apply v) mlsdInit

/-- What the parser makes of a line with these facts. -/
def outcome (env : Env) (facts : List Fact) (name : Bytes) : Option (Option FileInfo) :=
  if name = [] ∨ (folded env facts).type = .unknown then none
  else some (some ((folded env facts).info name))

theorem parse_outcome (env : Env) {facts : List Fact} (hNe : facts ≠ []) (name : Bytes) :
    parseFtpLongListMLSD env (lineText facts name) = outcome env facts name := by
  have hStep : (fun v f => mlsdFact env v (Fact.text f)) = fun v f => (effect env f).apply v :=
    funext fun v => funext fun f => mlsdFact_text env v f
  rw [parse_line env hNe, hStep]
  rfl

/-- A `Perm` fact and a `UNIX.mode` fact of the line tell the same mode. -/
def Agree (facts : List Fact) : Prop :=
  ∀ f ∈ facts, ∀ g ∈ facts, f.named (bytes "Perm") = true → g.named (bytes "UNIX.mode") = true →
    permOf f.value = modeOf g.value

theorem effect_comm (env : Env) {facts : List Fact} (hAgree : Agree facts) {f g : Fact}
    (hf : f ∈ facts) (hg : g ∈ facts) (hKey : f.key ≠ g.key) (v : Mlsd) :
    (effect env g).apply ((effect env f).apply v) = (effect env f).apply ((effect env g).apply v) := by
  have hModes : ∀ f ∈ facts, ∀ g ∈ facts, ∀ p m, effect env f = .perm p → effect env g = .mode m →
      p = m := by
    intro f hf g hg p m hPerm hMode
    have hNameF : f.named (bytes "Perm") = true := effect_named (by rw [hPerm]; rfl)
    have hNameG : g.named (bytes "UNIX.mode") = true := effect_named (by rw [hMode]; rfl)
    rw [effect_of_perm env hNameF] at hPerm
    rw [effect_of_mode env hNameG] at hMode
    injection hPerm with hPerm
    injection hMode with hMode
    rw [← hPerm, ← hMode]
    exact hAgree f hf g hg hNameF hNameG
  apply apply_comm _ (hModes f hf g hg) (hModes g hg f hf)
  cases hName : (effect env f).name with
  | none => exact .inl rfl
  | some name =>
      refine .inr fun hSame => hKey ?_
      rw [Fact.named_iff.mp (effect_named hName), Fact.named_iff.mp (effect_named hSame.symm)]

/-- The order of the facts does not matter where the modes agree. -/
theorem folded_perm (env : Env) {facts facts' : List Fact} (hPerm : facts'.Perm facts)
    (hDistinct : (facts.map Fact.key).Nodup) (hAgree : Agree facts) :
    folded env facts' = folded env facts := by
  apply List.Perm.foldl_eq' hPerm
  intro f hf g hg v
  have hf' := hPerm.mem_iff.mp hf
  have hg' := hPerm.mem_iff.mp hg
  by_cases hSame : f = g
  · rw [hSame]
  · exact effect_comm env hAgree hf' hg'
      (fun hKey => hSame (List.inj_on_of_nodup_map hDistinct hf' hg' hKey)) v

/-! ## The last fact that tells -/

/-- A variable that a fact sets has the value of the last fact that tells one. -/
theorem foldl_last {α : Type} {env : Env} {told : Fact → Option α} {get : Mlsd → α}
    (hStep : ∀ v f, get ((effect env f).apply v) = (told f).getD (get v)) (facts : List Fact)
    (v : Mlsd) : get (facts.foldl (fun v f => (effect env f).apply v) v)
      = ((facts.filterMap told).getLast?).getD (get v) := by
  induction facts generalizing v with
  | nil => rfl
  | cons f facts ih =>
      rw [List.foldl_cons, ih, hStep]
      cases hTold : told f with
      | none => rw [List.filterMap_cons_none hTold, Option.getD_none]
      | some a =>
          rw [List.filterMap_cons_some hTold, List.getLast?_cons, Option.getD_some,
            Option.getD_some]

/-- The type that a fact tells. -/
def typeTold (f : Fact) : Option FileType := if f.named (bytes "Type") then typeOf f.value else none

/-- The size that a fact tells. -/
def sizeTold (f : Fact) : Option Int :=
  if f.named (bytes "Size") then (scanLong f.value).map Prod.fst else none

/-- The mode that a fact tells. -/
def modeTold (f : Fact) : Option Int :=
  if f.named (bytes "Perm") then some (permOf f.value)
  else if f.named (bytes "UNIX.mode") then some (modeOf f.value)
  else none

theorem type_apply (env : Env) (v : Mlsd) (f : Fact) :
    ((effect env f).apply v).type = (typeTold f).getD v.type := by
  unfold typeTold
  by_cases hName : f.named (bytes "Type") = true
  · rw [effect_of_type env hName, if_pos hName]
    cases typeOf f.value <;> rfl
  · rw [if_neg hName]
    cases hEffect : effect env f with
    | type t => exact absurd (effect_named (by rw [hEffect]; rfl)) hName
    | _ => rfl

theorem size_apply (env : Env) (v : Mlsd) (f : Fact) :
    ((effect env f).apply v).size = (sizeTold f).getD v.size := by
  unfold sizeTold
  by_cases hName : f.named (bytes "Size") = true
  · rw [effect_of_size env hName, if_pos hName]
    cases scanLong f.value <;> rfl
  · rw [if_neg hName]
    cases hEffect : effect env f with
    | size n => exact absurd (effect_named (by rw [hEffect]; rfl)) hName
    | _ => rfl

theorem perms_apply (env : Env) (v : Mlsd) (f : Fact) :
    ((effect env f).apply v).perms = (modeTold f).getD v.perms := by
  unfold modeTold
  by_cases hPerm : f.named (bytes "Perm") = true
  · rw [effect_of_perm env hPerm, if_pos hPerm]
    rfl
  · rw [if_neg hPerm]
    by_cases hMode : f.named (bytes "UNIX.mode") = true
    · rw [effect_of_mode env hMode, if_pos hMode]
      rfl
    · rw [if_neg hMode]
      cases hEffect : effect env f with
      | perm p => exact absurd (effect_named (by rw [hEffect]; rfl)) hPerm
      | mode m => exact absurd (effect_named (by rw [hEffect]; rfl)) hMode
      | _ => rfl

theorem folded_type (env : Env) (facts : List Fact) :
    (folded env facts).type = ((facts.filterMap typeTold).getLast?).getD .unknown :=
  foldl_last (type_apply env) facts mlsdInit

theorem folded_size (env : Env) (facts : List Fact) :
    (folded env facts).size = ((facts.filterMap sizeTold).getLast?).getD (-1) :=
  foldl_last (size_apply env) facts mlsdInit

theorem folded_perms (env : Env) (facts : List Fact) :
    (folded env facts).perms = ((facts.filterMap modeTold).getLast?).getD (-1) :=
  foldl_last (perms_apply env) facts mlsdInit

/-! ## The record -/

theorem step_setMode (c : Bool) (f : FileInfo) (m : Nat) :
    (if c = true then f.setMode m else f) =
      { f with
        mode := if c then m else f.mode
        defined := f.defined ||| FileInfo.told c Defined.mode } := by
  cases c <;> simp [FileInfo.told, FileInfo.setMode, FileInfo.define]

/-- The record of the variables, and what is known in it. -/
theorem info_eq (v : Mlsd) (name : Bytes) : v.info name =
    { blankInfo with
      name := name
      size := if v.size != -1 then v.size else -1
      date := if v.date != noDate then ⟨v.date, 0⟩ else ⟨noDate, 0⟩
      filetype := v.type
      mode := if v.perms != -1 then (v.perms % 2 ^ 32).toNat else 0xffffffff
      user := v.owner
      group := v.group
      defined := Defined.name ||| FileInfo.told (v.size != -1) Defined.size
        ||| FileInfo.told (v.date != noDate) Defined.date ||| Defined.type
        ||| FileInfo.told (v.perms != -1) Defined.mode
        ||| FileInfo.told v.owner.isSome Defined.user
        ||| FileInfo.told v.group.isSome Defined.group } := by
  have hType : ∀ f : FileInfo, f.setType v.type
      = { f with filetype := v.type, defined := f.defined ||| Defined.type } := fun f => rfl
  have hDate : ∀ f : FileInfo, f.setDate v.date 0 = f.setDate (FileTimestamp.mk v.date 0).ts
      (FileTimestamp.mk v.date 0).tsPrec := fun f => rfl
  unfold Mlsd.info
  simp only [FileInfo.step_size, hDate, FileInfo.step_date, hType, step_setMode,
    FileInfo.step_user, FileInfo.step_group, setName, FileInfo.define, blankInfo]
  cases v.owner <;> cases v.group <;> simp [Nat.zero_or]

theorem has_info (v : Mlsd) (name : Bytes) :
    (v.info name).has Defined.mode = (v.perms != -1)
      ∧ (v.info name).has Defined.size = (v.size != -1)
      ∧ (v.info name).has Defined.type = true := by
  rw [info_eq]
  unfold FileInfo.has
  simp only [FileInfo.bit_or, FileInfo.bit_told]
  refine ⟨?_, ?_, ?_⟩
  · rw [show bit Defined.name Defined.mode = false from rfl,
      show bit Defined.size Defined.mode = false from rfl,
      show bit Defined.date Defined.mode = false from rfl,
      show bit Defined.type Defined.mode = false from rfl,
      show bit Defined.mode Defined.mode = true from rfl,
      show bit Defined.user Defined.mode = false from rfl,
      show bit Defined.group Defined.mode = false from rfl]
    simp
  · rw [show bit Defined.name Defined.size = false from rfl,
      show bit Defined.size Defined.size = true from rfl,
      show bit Defined.date Defined.size = false from rfl,
      show bit Defined.type Defined.size = false from rfl,
      show bit Defined.mode Defined.size = false from rfl,
      show bit Defined.user Defined.size = false from rfl,
      show bit Defined.group Defined.size = false from rfl]
    simp
  · rw [show bit Defined.type Defined.type = true from rfl]
    simp

/-! ## The order of the facts -/

/-- A line of facts with different names. -/
structure Line where
  facts : List Fact
  distinct : (facts.map Fact.key).Nodup
  name : Bytes
  name_nul : 0 ∉ name

/-- The mode of a record, `-1` for an unknown one. -/
def ModeIs (fi : FileInfo) (m : Int) : Prop :=
  fi.has Defined.mode = (m != -1) ∧ (m ≠ -1 → fi.mode = (m % 2 ^ 32).toNat)

/-- The facts that are looked at first give their attributes. -/
structure Wins (facts : List Fact) (fi : FileInfo) : Prop where
  mode : ∀ f ∈ facts, f.named (bytes "UNIX.mode") = true → ModeIs fi (modeOf f.value)
  owner : ∀ f ∈ facts, f.named (bytes "UNIX.owner") = true → fi.user = some f.value
  group : ∀ f ∈ facts, f.named (bytes "UNIX.group") = true → fi.group = some f.value

/-- In every order of the facts the parser makes the same of the line, and the facts of
`UNIX` win. -/
def Commutes (env : Env) (l : Line) : Prop :=
  ∀ facts, facts.Perm l.facts →
    parseFtpLongListMLSD env (lineText facts l.name)
        = parseFtpLongListMLSD env (lineText l.facts l.name)
      ∧ ∀ fi, parseFtpLongListMLSD env (lineText facts l.name) = some (some fi) → Wins l.facts fi

theorem modeIs_info (v : Mlsd) (name : Bytes) : ModeIs (v.info name) v.perms := by
  refine ⟨(has_info v name).1, fun hKnown => ?_⟩
  rw [info_eq]
  have hTest : (v.perms != -1) = true := by simpa using hKnown
  simp only [hTest, if_true]

/-- A fact may be taken for the last one. -/
theorem folded_last (env : Env) {facts : List Fact} (hDistinct : (facts.map Fact.key).Nodup)
    (hAgree : Agree facts) {f : Fact} (hf : f ∈ facts) :
    ∃ v, folded env facts = (effect env f).apply v := by
  obtain ⟨before, after, hSplit⟩ := List.append_of_mem hf
  have hPerm : (before ++ after ++ [f]).Perm facts := by
    rw [hSplit, List.append_assoc]
    exact (List.perm_append_left_iff before).mpr List.perm_append_comm
  rw [← folded_perm env hPerm hDistinct hAgree, folded, List.foldl_append]
  exact ⟨_, rfl⟩

theorem wins_of_agree (env : Env) {facts : List Fact} (hDistinct : (facts.map Fact.key).Nodup)
    (hAgree : Agree facts) (name : Bytes) : Wins facts ((folded env facts).info name) := by
  constructor
  · intro f hf hName
    obtain ⟨v, hv⟩ := folded_last env hDistinct hAgree hf
    rw [hv, effect_of_mode env hName]
    exact modeIs_info _ name
  · intro f hf hName
    obtain ⟨v, hv⟩ := folded_last env hDistinct hAgree hf
    rw [hv, effect_of_owner env hName, info_eq]
    rfl
  · intro f hf hName
    obtain ⟨v, hv⟩ := folded_last env hDistinct hAgree hf
    rw [hv, effect_of_group env hName, info_eq]
    rfl

/-- An `int`. -/
def IsInt (m : Int) : Prop := -2 ^ 31 ≤ m ∧ m < 2 ^ 31

theorem modeOf_isInt (value : Bytes) : IsInt (modeOf value) := by
  have hBmod : ∀ n : Int, IsInt (n.bmod (2 ^ 32)) := fun n =>
    ⟨Int.le_bmod (by decide), Int.bmod_lt (by decide)⟩
  unfold modeOf scanOctal
  dsimp only
  split
  · exact ⟨by decide, by decide⟩
  · exact hBmod _

theorem permLetter_lt (c : UInt8) : permLetter c < 2 ^ 9 := by
  unfold permLetter
  split_ifs <;> decide

theorem permOf_isInt (value : Bytes) : IsInt (permOf value) := by
  have hFold : ∀ n, n < 2 ^ 9 →
      value.foldl (fun perms c => perms ||| permLetter c) n < 2 ^ 9 := by
    induction value with
    | nil => exact fun n hn => hn
    | cons c value ih => exact fun n hn => ih _ (Nat.or_lt_two_pow hn (permLetter_lt c))
  have hLt := hFold 0 (by decide)
  unfold permOf IsInt
  rw [Int.ofNat_eq_natCast]
  omega

/-- A record has one mode. -/
theorem ModeIs.unique {fi : FileInfo} {m m' : Int} (h : ModeIs fi m) (h' : ModeIs fi m')
    (hInt : IsInt m) (hInt' : IsInt m') : m = m' := by
  have hKnown : (m != -1) = (m' != -1) := h.1.symm.trans h'.1
  by_cases hm : m = -1
  · have hm' : (m' != -1) = false := by rw [← hKnown, hm]; rfl
    rw [hm]
    exact (by simpa using hm' : m' = -1).symm
  · have hm' : m' ≠ -1 := by
      have hTrue : (m' != -1) = true := by rw [← hKnown]; simpa using hm
      simpa using hTrue
    have hSame := (h.2 hm).symm.trans (h'.2 hm')
    unfold IsInt at hInt hInt'
    omega

/-- Two facts may be taken for the last ones. -/
theorem exists_last_two {facts : List Fact} {f g : Fact} (hf : f ∈ facts) (hg : g ∈ facts)
    (hNe : g ≠ f) : ∃ rest, (rest ++ [f, g]).Perm facts := by
  obtain ⟨a, b, rfl⟩ := List.append_of_mem hf
  have hg' : g ∈ a ++ b := by
    rcases List.mem_append.mp hg with hg | hg
    · exact List.mem_append_left b hg
    · exact List.mem_append_right a ((List.mem_cons.mp hg).resolve_left hNe)
  obtain ⟨c, d, hSplit⟩ := List.append_of_mem hg'
  refine ⟨c ++ d, ?_⟩
  calc (c ++ d ++ [f, g]).Perm (f :: g :: (c ++ d)) := List.perm_append_comm
    _ |>.Perm (f :: (c ++ g :: d)) := List.Perm.cons f List.perm_middle.symm
    _ = f :: (a ++ b) := by rw [hSplit]
    _ |>.Perm (a ++ f :: b) := List.perm_middle.symm

theorem typeTold_ne {f : Fact} {t : FileType} (h : typeTold f = some t) : t ≠ .unknown := by
  rintro rfl
  unfold typeTold typeOf at h
  split_ifs at h <;> cases h

/-- A line with a name and a type is no error. -/
theorem outcome_of_told (env : Env) {facts : List Fact} {name : Bytes} (hName : name ≠ [])
    {f : Fact} (hf : f ∈ facts) (hTold : typeTold f ≠ none) :
    outcome env facts name = some (some ((folded env facts).info name)) := by
  apply if_neg
  rintro (hNil | hType)
  · exact hName hNil
  · rw [folded_type] at hType
    cases hLast : (facts.filterMap typeTold).getLast? with
    | none =>
        rw [List.getLast?_eq_none_iff, List.filterMap_eq_nil_iff] at hLast
        exact hTold (hLast f hf)
    | some t =>
        rw [hLast] at hType
        obtain ⟨g, -, hg⟩ := List.mem_filterMap.mp (List.mem_of_getLast? hLast)
        exact typeTold_ne hg hType

/-- Where the order does not matter, the line is an error in every order or its modes agree. -/
theorem agree_of_commutes {env : Env} {l : Line} (h : Commutes env l) :
    l.name = [] ∨ (∀ f ∈ l.facts, typeTold f = none) ∨ Agree l.facts := by
  by_contra hNot
  rw [not_or, not_or] at hNot
  obtain ⟨hName, hType, hDiffer⟩ := hNot
  unfold Agree at hDiffer
  push Not at hType hDiffer
  obtain ⟨t, ht, hTold⟩ := hType
  obtain ⟨f, hf, g, hg, hPerm, hMode, hDiffer⟩ := hDiffer
  have hOther : g.named (bytes "Perm") = false := named_unique hMode (by decide)
  have hNe : g ≠ f := by
    rintro rfl
    rw [hPerm] at hOther
    cases hOther
  have hInfo : ∀ facts, facts.Perm l.facts → parseFtpLongListMLSD env (lineText facts l.name)
      = some (some ((folded env facts).info l.name)) := by
    intro facts hFacts
    have hMem := hFacts.mem_iff.mpr ht
    rw [parse_outcome env (List.ne_nil_of_mem hMem)]
    exact outcome_of_told env hName hMem hTold
  obtain ⟨rest, hFirst⟩ := exists_last_two hf hg hNe
  have hSecond : (rest ++ [g, f]).Perm l.facts :=
    ((List.perm_append_left_iff rest).mpr (List.Perm.swap f g [])).trans hFirst
  have hSame := (h _ hFirst).1.trans (h _ hSecond).1.symm
  rw [hInfo _ hFirst, hInfo _ hSecond] at hSame
  have hRecord := Option.some.inj (Option.some.inj hSame)
  have hPerms : (folded env (rest ++ [f, g])).perms = modeOf g.value := by
    rw [folded_perms]
    simp [modeTold, hPerm, hMode, hOther]
  have hPerms' : (folded env (rest ++ [g, f])).perms = permOf f.value := by
    rw [folded_perms]
    simp [modeTold, hPerm, hMode, hOther]
  have hLast := modeIs_info (folded env (rest ++ [f, g])) l.name
  have hLast' := modeIs_info (folded env (rest ++ [g, f])) l.name
  rw [hPerms] at hLast
  rw [← hRecord, hPerms'] at hLast'
  exact hDiffer (hLast'.unique hLast (permOf_isInt _) (modeOf_isInt _))

/-- Exactly where the line is an error in every order, or its modes agree, the order of the
facts does not matter. -/
theorem commutes_iff (env : Env) (l : Line) :
    Commutes env l ↔ l.name = [] ∨ (∀ f ∈ l.facts, typeTold f = none) ∨ Agree l.facts := by
  constructor
  · exact agree_of_commutes
  · intro h facts hPerm
    by_cases hNe : l.facts = []
    · rw [hNe] at hPerm
      rw [hNe, List.perm_nil.mp hPerm]
      refine ⟨rfl, fun fi _ => ?_⟩
      constructor
      all_goals exact fun f hf => absurd hf List.not_mem_nil
    · have hNe' : facts ≠ [] := fun hNil => hNe (List.nil_perm.mp (hNil ▸ hPerm))
      rw [parse_outcome env hNe, parse_outcome env hNe']
      by_cases hError : l.name = [] ∨ ∀ f ∈ l.facts, typeTold f = none
      · have hNone : ∀ facts' : List Fact, facts'.Perm l.facts →
            outcome env facts' l.name = none := by
          intro facts' hPerm'
          apply if_pos
          apply hError.imp_right
          intro hTold
          rw [folded_type, List.filterMap_eq_nil_iff.mpr fun f hf =>
            hTold f (hPerm'.mem_iff.mp hf)]
          rfl
        rw [hNone facts hPerm, hNone l.facts (List.Perm.refl _)]
        refine ⟨rfl, fun fi hSome => ?_⟩
        cases hSome
      · have hAgree : Agree l.facts := by
          rcases h with h | h | h
          · exact absurd (.inl h) hError
          · exact absurd (.inr h) hError
          · exact h
        unfold outcome
        rw [folded_perm env hPerm l.distinct hAgree]
        refine ⟨rfl, fun fi hResult => ?_⟩
        split at hResult
        · cases hResult
        · cases hResult
          exact wins_of_agree env l.distinct hAgree l.name

instance (c : UInt8) : Decidable (FactByte c) := by
  unfold FactByte
  infer_instance

/-- A fact of plain letters. -/
def plainFact (name value : Bytes) (hName : name ≠ [])
    (hBytes : (name.all fun c => FactByte c ∧ c ≠ ch '=') = true)
    (hValue : (value.all fun c => FactByte c) = true) : Fact :=
  ⟨name, value, hName, forall_of_all hBytes, forall_of_all hValue⟩

/-- `UNIX.mode` does not win before `Perm`. -/
theorem not_commutes_mode : ¬ Commutes stillClock
    ⟨[plainFact (bytes "type") (bytes "file") (by decide) (by decide) (by decide),
      plainFact (bytes "UNIX.mode") (bytes "0644") (by decide) (by decide) (by decide),
      plainFact (bytes "perm") (bytes "r") (by decide) (by decide) (by decide)],
      by decide, bytes "a", by decide⟩ := by
  intro h
  rcases agree_of_commutes h with hName | hType | hAgree
  · exact absurd hName (by decide)
  · exact absurd (hType _ List.mem_cons_self) (by decide)
  · have hModes := hAgree _ (.tail _ (.tail _ (.head _))) _ (.tail _ (.head _)) rfl rfl
    exact absurd hModes (by decide)

end Lftp.Ports.FtpListInfo
