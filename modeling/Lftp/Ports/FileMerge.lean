import Lftp.Ports.FileSets
import Mathlib.Data.Nat.Bitwise

/-!
# Merging what is known of a file

`FileInfo::Merge` adds to a record what another one of the same name knows. `Fills` is what it
is for: every attribute that was known stays, every one that only the other knows is taken
over, and no other becomes known. `merge_fills_iff` says when the code does this.

`MergeInfo` tests the bit of `SYMLINK`, a file type, where it means `SYMLINK_DEF`: that bit is
`MODE`. So a mode that is taken over makes the record a symbolic link, and the target of a
symbolic link is never taken over. Each attribute after a merge is given by a lemma.
-/

namespace Lftp.Ports.FileSets

open Lftp.Verified

/-- What a `FileInfo` may know, with its bit in `defined`. -/
inductive Attr
  | name
  | mode
  | date
  | type
  | symlink
  | size
  | user
  | group
  | nlinks
deriving DecidableEq

namespace Attr

/-- The bit is `2 ^ index`. -/
def index : Attr → Nat
  | name => 0
  | mode => 1
  | date => 2
  | type => 3
  | symlink => 4
  | size => 6
  | user => 7
  | group => 8
  | nlinks => 9

def bit (x : Attr) : Nat := 2 ^ x.index

/-- The records agree in the attribute. -/
def Same (x : Attr) (f g : FileInfo) : Prop :=
  match x with
  | name => f.name = g.name
  | mode => f.mode = g.mode
  | date => f.date = g.date
  | type => f.filetype = g.filetype
  | symlink => f.symlink = g.symlink
  | size => f.size = g.size
  | user => f.user = g.user
  | group => f.group = g.group
  | nlinks => f.nlinks = g.nlinks

end Attr

namespace FileInfo

variable {a b : FileInfo} {x : Attr}

def knows (f : FileInfo) (x : Attr) : Bool := f.has x.bit

/-- Known of `b` but not of `a`. -/
def newIn (a b : FileInfo) (x : Attr) : Bool := !a.knows x && b.knows x

/-- The date of `b` is better than that of `a`. -/
def betterDate (a b : FileInfo) : Bool :=
  a.knows .date && b.knows .date && b.date.tsPrec < a.date.tsPrec

/-- `r` is `a` with the gaps filled from `b`. -/
structure Fills (a b r : FileInfo) : Prop where
  kept : ∀ x, x ≠ .date → a.knows x = true → r.knows x = true ∧ x.Same r a
  keptDate : a.knows .date = true → r.knows .date = true ∧
    (r.date = a.date ∨ r.date = b.date ∧ a.betterDate b = true)
  taken : ∀ x, a.newIn b x = true → r.knows x = true ∧ x.Same r b
  unknown : ∀ x, a.knows x = false → b.knows x = false → r.knows x = false
  filetype : a.knows .type = false → b.knows .type = false → r.filetype = a.filetype
  target : a.knows .symlink = false → b.knows .symlink = false → r.symlink = a.symlink

/-! ## Bits -/

theorem bit_or (d e m : Nat) :
    FileSets.bit (d ||| e) m = (FileSets.bit d m || FileSets.bit e m) := by
  unfold FileSets.bit
  rw [Nat.and_or_distrib_right, ← Bool.decide_or, decide_eq_decide]
  rw [ne_eq, Nat.or_eq_zero_iff]
  exact not_and_or

theorem bit_attr (d : Nat) (x : Attr) : FileSets.bit d x.bit = d.testBit x.index := by
  unfold FileSets.bit Attr.bit
  rw [Nat.and_two_pow]
  cases d.testBit x.index <;> simp

/-- `~defined` of the one and `defined` of the other. -/
theorem bit_dif (a b : FileInfo) (x : Attr) :
    FileSets.bit ((a.defined ^^^ 0xffffffff) &&& b.defined) x.bit = a.newIn b x := by
  have hAll : (0xffffffff : Nat).testBit x.index = true := by cases x <;> rfl
  unfold newIn knows has
  rw [bit_attr, bit_attr, bit_attr, Nat.testBit_and, Nat.testBit_xor, hAll, Bool.xor_true]

/-! ## The steps -/

/-- The bits that a step of the merge defines. -/
def told (c : Bool) (m : Nat) : Nat := if c then m else 0

theorem bit_told (c : Bool) (m n : Nat) :
    FileSets.bit (told c m) n = (c && FileSets.bit m n) := by
  cases c
  · exact decide_eq_false (not_not.mpr (Nat.zero_and n))
  · rfl

theorem step_mode (c : Bool) (f : FileInfo) (m : Nat) :
    (if c = true then
      if (f.setMode m).mode ≠ 2 ∧ (f.setMode m).mode ≠ 4 then { f.setMode m with symlink := none }
      else f.setMode m
    else f) =
      { f with
        mode := if c then m else f.mode
        symlink := if c = true ∧ m ≠ 2 ∧ m ≠ 4 then none else f.symlink
        defined := f.defined ||| told c Defined.mode } := by
  cases c
  · simp [told]
  · by_cases h : m ≠ 2 ∧ m ≠ 4 <;> simp [told, setMode, define, h]

theorem step_date (c : Bool) (f : FileInfo) (t : FileTimestamp) :
    (if c = true then f.setDate t.ts t.tsPrec else f) =
      { f with
        date := if c then t else f.date
        defined := f.defined ||| told c Defined.date } := by
  cases c <;> simp [told, setDate, define]

theorem step_size (c : Bool) (f : FileInfo) (s : Int) :
    (if c = true then f.setSize s else f) =
      { f with
        size := if c then s else f.size
        defined := f.defined ||| told c Defined.size } := by
  cases c <;> simp [told, setSize, define]

theorem step_type (c : Bool) (f : FileInfo) (t : FileType) :
    (if c = true then f.setType t else f) =
      { f with
        filetype := if c then t else f.filetype
        defined := f.defined ||| told c Defined.type } := by
  cases c <;> simp [told, setType, define]

theorem step_symlink (c : Bool) (f : FileInfo) (s : Option Bytes) :
    (if c = true then f.setSymlink s else f) =
      { f with
        symlink := if c then s else f.symlink
        filetype := if c then .symlink else f.filetype
        defined := f.defined ||| told c (Defined.type ||| Defined.symlinkDef) } := by
  cases c <;> simp [told, setSymlink, define]

theorem step_user (c : Bool) (f : FileInfo) (u : Option Bytes) :
    (if c = true then f.setUser u else f) =
      { f with
        user := if c then u else f.user
        defined := f.defined ||| told (c && u ≠ f.user) Defined.user } := by
  cases c
  · simp [told]
  · by_cases h : u = f.user
    · subst h
      simp [told, setUser]
    · simp [told, setUser, define, h]

theorem step_group (c : Bool) (f : FileInfo) (g : Option Bytes) :
    (if c = true then f.setGroup g else f) =
      { f with
        group := if c then g else f.group
        defined := f.defined ||| told (c && g ≠ f.group) Defined.group } := by
  cases c
  · simp [told]
  · by_cases h : g = f.group
    · subst h
      simp [told, setGroup]
    · simp [told, setGroup, define, h]

theorem step_nlinks (c : Bool) (f : FileInfo) (n : Int) :
    (if c = true then f.setNlink n else f) =
      { f with
        nlinks := if c then n else f.nlinks
        defined := f.defined ||| told c Defined.nlinks } := by
  cases c <;> simp [told, setNlink, define]

theorem mergeInfo_eq (a b : FileInfo) : a.mergeInfo b (a.defined ^^^ 0xffffffff) =
    { a with
      mode := if a.newIn b .mode then b.mode else a.mode
      date := if a.newIn b .date || a.betterDate b then b.date else a.date
      size := if a.newIn b .size then b.size else a.size
      filetype := if a.newIn b .mode then .symlink
        else if a.newIn b .type then b.filetype else a.filetype
      symlink := if a.newIn b .mode then b.symlink else a.symlink
      user := if a.newIn b .user then b.user else a.user
      group := if a.newIn b .group then b.group else a.group
      nlinks := if a.newIn b .nlinks then b.nlinks else a.nlinks
      defined := a.defined ||| told (a.newIn b .mode) Defined.mode
        ||| told (a.newIn b .date || a.betterDate b) Defined.date
        ||| told (a.newIn b .size) Defined.size
        ||| told (a.newIn b .type) Defined.type
        ||| told (a.newIn b .mode) (Defined.type ||| Defined.symlinkDef)
        ||| told (a.newIn b .user && b.user ≠ a.user) Defined.user
        ||| told (a.newIn b .group && b.group ≠ a.group) Defined.group
        ||| told (a.newIn b .nlinks) Defined.nlinks } := by
  have hMode : bit ((a.defined ^^^ 0xffffffff) &&& b.defined) Defined.mode = a.newIn b .mode :=
    bit_dif a b .mode
  have hDate : bit ((a.defined ^^^ 0xffffffff) &&& b.defined) Defined.date = a.newIn b .date :=
    bit_dif a b .date
  have hSize : bit ((a.defined ^^^ 0xffffffff) &&& b.defined) Defined.size = a.newIn b .size :=
    bit_dif a b .size
  have hType : bit ((a.defined ^^^ 0xffffffff) &&& b.defined) Defined.type = a.newIn b .type :=
    bit_dif a b .type
  have hSymlink : bit ((a.defined ^^^ 0xffffffff) &&& b.defined) 2 = a.newIn b .mode := hMode
  have hUser : bit ((a.defined ^^^ 0xffffffff) &&& b.defined) Defined.user = a.newIn b .user :=
    bit_dif a b .user
  have hGroup : bit ((a.defined ^^^ 0xffffffff) &&& b.defined) Defined.group = a.newIn b .group :=
    bit_dif a b .group
  have hNlinks :
      bit ((a.defined ^^^ 0xffffffff) &&& b.defined) Defined.nlinks = a.newIn b .nlinks :=
    bit_dif a b .nlinks
  have hOther : bit Defined.mode Defined.date = false := rfl
  unfold mergeInfo
  simp only [step_mode, step_date, step_size, step_type, step_symlink, step_user, step_group,
    step_nlinks, hMode, hDate, hSize, hType, hSymlink, hUser, hGroup, hNlinks]
  have hBetter : (a.has Defined.date && b.has Defined.date
      && decide (b.date.tsPrec < a.date.tsPrec)) = a.betterDate b := rfl
  simp only [has, bit_or, bit_told, hOther, Bool.and_false, Bool.or_false] at hBetter ⊢
  rw [hBetter]
  cases a.newIn b .mode <;> simp

/-! ## What is known -/

theorem known_of_better (h : a.betterDate b = true) : a.knows .date = true := by
  unfold betterDate at h
  rw [Bool.and_eq_true, Bool.and_eq_true] at h
  exact h.1.1

/-- The merge knows what the record or one of the steps told. -/
theorem knows_mergeInfo (a b : FileInfo) (x : Attr) :
    (a.mergeInfo b (a.defined ^^^ 0xffffffff)).knows x = (a.knows x || match x with
      | .name => false
      | .mode => a.newIn b .mode
      | .date => a.newIn b .date
      | .type => a.newIn b .type || a.newIn b .mode
      | .symlink => a.newIn b .mode
      | .size => a.newIn b .size
      | .user => a.newIn b .user && b.user ≠ a.user
      | .group => a.newIn b .group && b.group ≠ a.group
      | .nlinks => a.newIn b .nlinks) := by
  have hKnown : FileSets.bit a.defined x.bit = a.knows x := rfl
  rw [mergeInfo_eq]
  show FileSets.bit _ x.bit = _
  simp only [bit_or, bit_told, hKnown]
  cases x
  case date =>
    show _ = (a.knows .date || a.newIn b .date)
    cases hBetter : a.betterDate b
    · simp [Attr.bit, Attr.index, FileSets.bit, Defined.mode, Defined.date, Defined.size,
        Defined.type, Defined.symlinkDef, Defined.user, Defined.group, Defined.nlinks]
    · rw [known_of_better hBetter]
      simp
  all_goals simp [Attr.bit, Attr.index, FileSets.bit, Defined.mode, Defined.date, Defined.size,
    Defined.type, Defined.symlinkDef, Defined.user, Defined.group, Defined.nlinks, Bool.or_assoc]

theorem newIn_of (ha : a.knows x = false) (hb : b.knows x = true) : a.newIn b x = true := by
  unfold newIn
  rw [ha, hb]
  rfl

theorem known_of_newIn (h : a.newIn b x = true) : a.knows x = false ∧ b.knows x = true := by
  unfold newIn at h
  rw [Bool.and_eq_true, Bool.not_eq_true'] at h
  exact h

/-! ## Filling the gaps -/

/-- When the merge does what it is for. -/
structure Mergeable (a b : FileInfo) : Prop where
  name : a.newIn b .name = false
  user : a.newIn b .user = true → b.user ≠ a.user
  group : a.newIn b .group = true → b.group ≠ a.group
  target : a.newIn b .symlink = true → a.newIn b .mode = true
  type : a.newIn b .mode = true →
    a.typeIs .symlink = true ∨ a.knows .type = false ∧ b.typeIs .symlink = true
  link : a.newIn b .mode = true →
    a.knows .symlink = true ∧ a.symlink = b.symlink ∨ a.newIn b .symlink = true

theorem type_of_typeIs {f : FileInfo} (h : f.typeIs .symlink = true) :
    f.knows .type = true ∧ f.filetype = .symlink := by
  unfold typeIs at h
  rw [Bool.and_eq_true, decide_eq_true_eq] at h
  exact h

theorem typeIs_of {f : FileInfo} {t : FileType} (hKnown : f.knows .type = true)
    (hType : f.filetype = t) : f.typeIs t = true := by
  unfold typeIs
  rw [Bool.and_eq_true, decide_eq_true_eq]
  exact ⟨hKnown, hType⟩

theorem newIn_of_known (h : a.knows x = true) : a.newIn b x = false := by
  unfold newIn
  rw [h]
  rfl

theorem newIn_of_unknown (h : b.knows x = false) : a.newIn b x = false := by
  unfold newIn
  rw [h, Bool.and_false]

theorem Mergeable.kept (h : Mergeable a b) (hx : x ≠ .date) (hKnown : a.knows x = true) :
    x.Same (a.mergeInfo b (a.defined ^^^ 0xffffffff)) a := by
  have hOld := newIn_of_known (b := b) hKnown
  rw [mergeInfo_eq]
  cases x
  case date => exact absurd rfl hx
  case type =>
    simp only [Attr.Same, hOld]
    cases hMode : a.newIn b .mode
    · rfl
    · rcases h.type hMode with hType | hType
      · exact (type_of_typeIs hType).2.symm
      · exact absurd hKnown (by rw [hType.1]; decide)
  case symlink =>
    simp only [Attr.Same]
    cases hMode : a.newIn b .mode
    · rfl
    · rcases h.link hMode with hLink | hLink
      · exact hLink.2.symm
      · exact absurd hLink (by rw [hOld]; decide)
  all_goals simp [Attr.Same, hOld]

theorem Mergeable.taken (h : Mergeable a b) (hNew : a.newIn b x = true) :
    (a.mergeInfo b (a.defined ^^^ 0xffffffff)).knows x = true ∧
      x.Same (a.mergeInfo b (a.defined ^^^ 0xffffffff)) b := by
  rw [knows_mergeInfo, mergeInfo_eq]
  cases x
  case name => exact absurd hNew (by rw [h.name]; decide)
  case type =>
    have hUnknown := (known_of_newIn hNew).1
    simp only [Attr.Same, hNew, Bool.true_or, Bool.or_true, true_and]
    cases hMode : a.newIn b .mode
    · rfl
    · rcases h.type hMode with hType | hType
      · exact absurd (type_of_typeIs hType).1 (by rw [hUnknown]; decide)
      · exact (type_of_typeIs hType.2).2.symm
  case symlink => simp [Attr.Same, h.target hNew]
  case user => simp [Attr.Same, hNew, h.user hNew]
  case group => simp [Attr.Same, hNew, h.group hNew]
  all_goals simp [Attr.Same, hNew]

theorem Mergeable.unknown (h : Mergeable a b) (ha : a.knows x = false) (hb : b.knows x = false) :
    (a.mergeInfo b (a.defined ^^^ 0xffffffff)).knows x = false := by
  have hOld := newIn_of_unknown (a := a) hb
  rw [knows_mergeInfo, ha]
  cases x
  case type =>
    cases hMode : a.newIn b .mode
    · simp [hOld]
    · rcases h.type hMode with hType | hType
      · exact absurd (type_of_typeIs hType).1 (by rw [ha]; decide)
      · exact absurd (type_of_typeIs hType.2).1 (by rw [hb]; decide)
  case symlink =>
    cases hMode : a.newIn b .mode
    · rfl
    · rcases h.link hMode with hLink | hLink
      · exact absurd hLink.1 (by rw [ha]; decide)
      · exact absurd hLink (by rw [hOld]; decide)
  all_goals simp [hOld]

theorem Mergeable.fills (h : Mergeable a b) :
    Fills a b (a.mergeInfo b (a.defined ^^^ 0xffffffff)) := by
  constructor
  · intro x hx hKnown
    exact ⟨by rw [knows_mergeInfo, hKnown, Bool.true_or], h.kept hx hKnown⟩
  · intro hKnown
    constructor
    · rw [knows_mergeInfo, hKnown, Bool.true_or]
    · rw [mergeInfo_eq, newIn_of_known hKnown]
      cases a.betterDate b
      · exact .inl rfl
      · exact .inr ⟨rfl, rfl⟩
  · exact fun x => h.taken
  · exact fun x => h.unknown
  · intro ha hb
    have hType := newIn_of_unknown (a := a) hb
    rw [mergeInfo_eq, hType]
    cases hMode : a.newIn b .mode
    · rfl
    · rcases h.type hMode with hSymlink | hSymlink
      · exact absurd (type_of_typeIs hSymlink).1 (by rw [ha]; decide)
      · exact absurd (type_of_typeIs hSymlink.2).1 (by rw [hb]; decide)
  · intro ha hb
    rw [mergeInfo_eq]
    cases hMode : a.newIn b .mode
    · rfl
    · rcases h.link hMode with hLink | hLink
      · exact absurd hLink.1 (by rw [ha]; decide)
      · exact absurd (known_of_newIn hLink).2 (by rw [hb]; decide)

theorem mergeable_of_fills (h : Fills a b (a.mergeInfo b (a.defined ^^^ 0xffffffff))) :
    Mergeable a b := by
  have hKnows := knows_mergeInfo a b
  constructor
  · apply Bool.eq_false_iff.mpr
    intro hNew
    have hTaken := (h.taken .name hNew).1
    rw [hKnows, (known_of_newIn hNew).1] at hTaken
    exact Bool.noConfusion hTaken
  · intro hNew hSame
    have hTaken := (h.taken .user hNew).1
    rw [hKnows, (known_of_newIn hNew).1] at hTaken
    simp [hSame] at hTaken
  · intro hNew hSame
    have hTaken := (h.taken .group hNew).1
    rw [hKnows, (known_of_newIn hNew).1] at hTaken
    simp [hSame] at hTaken
  · intro hNew
    have hTaken := (h.taken .symlink hNew).1
    rw [hKnows, (known_of_newIn hNew).1] at hTaken
    exact hTaken
  · intro hMode
    have hType : (a.mergeInfo b (a.defined ^^^ 0xffffffff)).filetype = .symlink := by
      rw [mergeInfo_eq, hMode]
      rfl
    have hTold : (a.mergeInfo b (a.defined ^^^ 0xffffffff)).knows .type = true := by
      rw [hKnows, hMode]
      simp
    cases ha : a.knows .type
    · cases hb : b.knows .type
      · exact absurd hTold (by rw [h.unknown .type ha hb]; decide)
      · have hSame : _ = b.filetype := (h.taken .type (newIn_of ha hb)).2
        right
        exact ⟨rfl, typeIs_of hb (hSame.symm.trans hType)⟩
    · have hSame : _ = a.filetype := (h.kept .type (by decide) ha).2
      left
      exact typeIs_of ha (hSame.symm.trans hType)
  · intro hMode
    have hLink : (a.mergeInfo b (a.defined ^^^ 0xffffffff)).symlink = b.symlink := by
      rw [mergeInfo_eq, hMode]
      rfl
    have hTold : (a.mergeInfo b (a.defined ^^^ 0xffffffff)).knows .symlink = true := by
      rw [hKnows, hMode]
      simp
    cases ha : a.knows .symlink
    · cases hb : b.knows .symlink
      · exact absurd hTold (by rw [h.unknown .symlink ha hb]; decide)
      · exact .inr (newIn_of ha hb)
    · have hSame : _ = a.symlink := (h.kept .symlink (by decide) ha).2
      exact .inl ⟨rfl, hSame.symm.trans hLink⟩

theorem merge_eq (h : basenamePtr a.name = basenamePtr b.name) :
    a.merge b = a.mergeInfo b (a.defined ^^^ 0xffffffff) := by
  unfold merge strcmp
  rw [if_neg]
  rw [h, not_not]
  exact Std.ReflCmp.compare_self

theorem merge_fills_iff (h : basenamePtr a.name = basenamePtr b.name) :
    Fills a b (a.merge b) ↔ Mergeable a b := by
  rw [merge_eq h]
  exact ⟨mergeable_of_fills, Mergeable.fills⟩

/-- Nothing is known of the file but its name. -/
def plain (name : Bytes) : FileInfo where
  name := name
  longname := none
  symlink := none
  mode := 0xffffffff
  date := ⟨-2, 0⟩
  size := -1
  user := none
  group := none
  nlinks := 0
  filetype := .unknown
  defined := Defined.name
  rank := 0

/-- A normal file of which the mode is not known becomes a symbolic link. -/
theorem merge_mode_makes_symlink :
    (((plain (bytes "a")).setType .normal).merge ((plain (bytes "a")).setMode 0o644)).filetype =
        .symlink ∧
      ¬ Fills ((plain (bytes "a")).setType .normal) ((plain (bytes "a")).setMode 0o644)
        (((plain (bytes "a")).setType .normal).merge ((plain (bytes "a")).setMode 0o644)) := by
  constructor
  · decide
  · intro h
    have hType : FileInfo.filetype _ = .normal := (h.kept .type (by decide) (by decide)).2
    exact absurd hType (by decide)

theorem merge_fills_size :
    Fills (plain (bytes "a")) ((plain (bytes "a")).setSize 5)
        ((plain (bytes "a")).merge ((plain (bytes "a")).setSize 5)) ↔
      Mergeable (plain (bytes "a")) ((plain (bytes "a")).setSize 5) :=
  merge_fills_iff rfl

end FileInfo

end Lftp.Ports.FileSets
