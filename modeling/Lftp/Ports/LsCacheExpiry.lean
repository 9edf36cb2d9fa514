import Lftp.Ports.LsCache
import Lftp.Ports.Timers
import Lftp.Verified.Runs

/-!
# How long a listing is cached

An entry of `LsCache` is a `Timer`, which its constructor sets to `cache:expire` or, for an error,
to `cache:expire-negative`. `Add` puts a new result into the entry that it finds and leaves the
timer as it is.

* `fresh_iff`: no lookup ever returns a result after its time, exactly when each result that
  replaces one is due no sooner than the entry it is put into.
-/

namespace Lftp.Ports.LsCacheExpiry

open Lftp.Verified
open Lftp.Ports.LsCache (FileAccess Proto Mode FileSet Entry Env)
open Lftp.Ports.Timers (TimeInterval)

/-! ## Entries with timers -/

/-- `LsCacheEntry`. A time is a number of microseconds. -/
structure Timed where
  loc : FileAccess
  arg : Option Bytes
  mode : Mode
  /-- `err_code==FA::OK` -/
  ok : Bool
  data : Bytes
  afset : Option FileSet
  /-- `Timer::start` and `Timer::last_setting` -/
  start : Int
  lastSetting : TimeInterval
  /-- When the result was stored; the code has no such field. -/
  since : Int

abbrev Chain := List Timed

/-- `Timer::Stopped` -/
def Timed.stopped (c : Timed) (now : Int) : Bool :=
  if c.lastSetting.infty then false else now ≥ c.start + c.lastSetting.diff

/-- The entry as it is at a time. -/
def Timed.at (now : Int) (c : Timed) : Entry :=
  ⟨c.loc, c.arg, c.mode, c.ok, c.data, c.afset, c.stopped now⟩

/-- The settings with the closure, `cache:expire` for success and `cache:expire-negative` for an
error. -/
structure Settings extends Env where
  cacheEmptyListings : Option Bytes → Bool
  expire : Bool → Option Bytes → TimeInterval

/-- `FileAccess::status`, as far as `Add` tells it. -/
inductive Status
  | ok
  | noFile
  | notSupp
  | other
deriving DecidableEq

variable (env : Settings)

/-! ## The cache -/

/-- `Cache::Trim` -/
def trimFront (now : Int) : Int → Chain → Chain
  | _, [] => []
  | size, c :: chain =>
    if env.sizeLimit < size then trimFront now (size - env.estimateSize (c.at now)) chain
    else c :: chain

def trim (now : Int) (chain : Chain) : Chain :=
  let kept := chain.filter fun c => !c.stopped now
  trimFront env now (kept.map fun c => env.estimateSize (c.at now)).sum kept

/-- The private `LsCache::Find`. -/
def findEntry (now : Int) (chain : Chain) (loc : FileAccess) (a : Option Bytes)
    (m : Option Mode) : Option Timed × Chain :=
  if env.enabled loc.hostname then
    match chain.find? fun c => (c.at now).matches loc a m with
    | none => (none, chain)
    | some c => if c.stopped now then (none, trim env now chain) else (some c, chain)
  else (none, chain)

/-- `LsCacheEntry::LsCacheEntry` -/
def create (now : Int) (loc : FileAccess) (a : Option Bytes) (m : Mode) (e : Status)
    (data : Bytes) (fs : Option FileSet) : Timed :=
  { loc := loc, arg := a, mode := m, ok := e = .ok, data := data, afset := fs
    start := now, lastSetting := env.expire (e = .ok) loc.hostname, since := now }

/-- `LsCacheEntryData::SetData` -/
def Timed.setData (c : Timed) (now : Int) (e : Status) (data : Bytes) (fs : Option FileSet) :
    Timed :=
  { c with ok := e = .ok, data := data, afset := fs, since := now }

/-- The first matching entry is changed. -/
def modifyFirst (now : Int) (chain : Chain) (loc : FileAccess) (a : Option Bytes)
    (m : Option Mode) (f : Timed → Timed) : Chain :=
  chain.modify (chain.findIdx fun c => (c.at now).matches loc a m) f

/-- `LsCache::Add` gets past its first three lines. -/
def accepts (loc : FileAccess) (e : Status) (data : Bytes) : Bool :=
  loc.proto ≠ .file && (data ≠ [] || env.cacheEmptyListings loc.hostname) && e ≠ .other

/-- `LsCache::Add` -/
def add (now : Int) (loc : FileAccess) (a : Option Bytes) (m : Mode) (e : Status) (data : Bytes)
    (fs : Option FileSet) (chain : Chain) : Chain :=
  if accepts env loc e data then
    match findEntry env now (trim env now chain) loc a (some m) with
    | (none, chain) =>
      if env.enabled loc.hostname then create env now loc a m e data fs :: chain else chain
    | (some _, chain) => modifyFirst now chain loc a (some m) (·.setData now e data fs)
  else chain

/-- `LsCache::FindFileSet`, as far as it changes the cache. -/
def findFileSet (now : Int) (loc : FileAccess) (a : Option Bytes) (m : Option Mode)
    (chain : Chain) : Chain :=
  match findEntry env now chain loc a m with
  | (none, chain) => chain
  | (some _, chain) => modifyFirst now chain loc a m fun c =>
      { c with afset := (c.at now).getFileSet env.toEnv }

/-! ## Runs -/

inductive Op
  | add (loc : FileAccess) (a : Option Bytes) (m : Mode) (e : Status) (data : Bytes)
      (fs : Option FileSet)
  | find (loc : FileAccess) (a : Option Bytes) (m : Option Mode)
  | findFileSet (loc : FileAccess) (a : Option Bytes) (m : Option Mode)

/-- A call, and the time that passes before it. -/
structure Event where
  wait : Nat
  op : Op

structure State where
  now : Int
  chain : Chain

def step (s : State) (o : Event) : State :=
  let now := s.now + o.wait
  match o.op with
  | .add loc a m e data fs => ⟨now, add env now loc a m e data fs s.chain⟩
  | .find loc a m => ⟨now, (findEntry env now s.chain loc a m).2⟩
  | .findFileSet loc a m => ⟨now, findFileSet env now loc a m s.chain⟩

/-- Less time has passed since the result was stored than the setting for its kind says. -/
def Timed.Young (c : Timed) (now : Int) : Prop :=
  let setting := env.expire c.ok c.loc.hostname
  setting.infty = true ∨ now - c.since < setting.diff

/-- What a lookup returns, now or later, is young. -/
def Fresh (s : State) : Prop :=
  ∀ (wait : Nat) (loc : FileAccess) (a : Option Bytes) (m : Option Mode) (c : Timed),
    (findEntry env (s.now + wait) s.chain loc a m).1 = some c → c.Young env (s.now + wait)

/-- The timer stops the entry before a result stored at a time is too old for its kind. -/
def Timed.StopsBy (c : Timed) (ok : Bool) (since : Int) : Prop :=
  let setting := env.expire ok c.loc.hostname
  setting.infty = true ∨ c.lastSetting.infty = false
    ∧ c.start + c.lastSetting.diff ≤ since + setting.diff

/-- A result that is put into an entry is due no sooner than the entry. -/
def Due (s : State) (o : Event) : Prop :=
  match o.op with
  | .add loc a m e data _ =>
    let now := s.now + o.wait
    accepts env loc e data = true → ∀ c,
      (findEntry env now (trim env now s.chain) loc a (some m)).1 = some c →
        c.StopsBy env (e = .ok) now
  | _ => True

section
variable {env} {now t : Int} {chain : Chain} {loc : FileAccess} {a : Option Bytes}
  {m : Option Mode} {c : Timed}

/-! ## What stays in the cache -/

theorem trimFront_suffix (size : Int) (chain : Chain) : trimFront env now size chain <:+ chain := by
  induction chain generalizing size with
  | nil => exact List.suffix_refl _
  | cons c chain ih =>
      rw [trimFront]
      split
      · exact (ih _).trans (List.suffix_cons c chain)
      · exact List.suffix_refl _

theorem trim_subset (chain : Chain) : trim env now chain ⊆ chain := fun _ h =>
  List.mem_of_mem_filter ((trimFront_suffix _ _).subset h)

theorem findEntry_subset (chain : Chain) : (findEntry env now chain loc a m).2 ⊆ chain := by
  unfold findEntry
  split
  · split
    · exact List.Subset.refl _
    · split
      · exact trim_subset chain
      · exact List.Subset.refl _
  · exact List.Subset.refl _

/-- What it takes for an entry to be found. -/
structure Found (env : Settings) (now : Int) (chain : Chain) (loc : FileAccess) (a : Option Bytes)
    (m : Option Mode) (c : Timed) : Prop where
  enabled : env.enabled loc.hostname = true
  first : chain.find? (fun c => (c.at now).matches loc a m) = some c
  running : c.stopped now = false

theorem found_iff :
    (findEntry env now chain loc a m).1 = some c ↔ Found env now chain loc a m c := by
  unfold findEntry
  by_cases hEnabled : env.enabled loc.hostname = true
  · rw [if_pos hEnabled]
    cases hFind : chain.find? fun c => (c.at now).matches loc a m with
    | none => exact iff_of_false nofun fun h => Option.some_ne_none _ (h.first.symm.trans hFind)
    | some d =>
        constructor
        · intro h
          cases hStopped : d.stopped now with
          | true => simp [hStopped] at h
          | false =>
              obtain rfl : d = c := by simpa [hStopped] using h
              exact ⟨hEnabled, hFind, hStopped⟩
        · intro h
          obtain rfl : d = c := Option.some.inj (hFind.symm.trans h.first)
          simp [h.running]
  · rw [if_neg hEnabled]
    exact iff_of_false nofun fun h => hEnabled h.enabled

theorem findEntry_of_found (h : Found env now chain loc a m c) :
    findEntry env now chain loc a m = (some c, chain) := by
  simp [findEntry, h.enabled, h.first, h.running]

theorem findEntry_eq_none {chain' : Chain} (h : findEntry env now chain loc a m = (none, chain')) :
    chain' ⊆ chain := by
  have hSub : (findEntry env now chain loc a m).2 ⊆ chain := findEntry_subset chain
  rwa [h] at hSub

/-- A change of the first matching entry that lets it match is a change of what is found. -/
theorem find?_modifyFirst {f : Timed → Timed}
    (hSame : ∀ c : Timed, ((f c).at now).matches loc a m ↔ (c.at now).matches loc a m)
    (h : chain.find? (fun c => (c.at now).matches loc a m) = some c) :
    (modifyFirst now chain loc a m f).find? (fun c => (c.at now).matches loc a m) = some (f c) := by
  unfold modifyFirst
  induction chain with
  | nil => cases h
  | cons d chain ih =>
      by_cases hMatch : (d.at now).matches loc a m
      · rw [List.find?_cons_of_pos (by simpa using hMatch)] at h
        obtain rfl := Option.some.inj h
        rw [List.findIdx_cons, decide_eq_true hMatch]
        exact List.find?_cons_of_pos (by simpa using (hSame d).mpr hMatch)
      · rw [List.find?_cons_of_neg (by simpa using hMatch)] at h
        rw [List.findIdx_cons, decide_eq_false hMatch]
        exact (List.find?_cons_of_neg (by simpa using hMatch)).trans (ih h)

theorem mem_modifyFirst {f : Timed → Timed}
    (h : chain.find? (fun c => (c.at now).matches loc a m) = some c) {d : Timed}
    (hd : d ∈ modifyFirst now chain loc a m f) : d ∈ chain ∨ d = f c := by
  unfold modifyFirst at hd
  induction chain with
  | nil => cases h
  | cons e chain ih =>
      by_cases hMatch : (e.at now).matches loc a m
      · rw [List.find?_cons_of_pos (by simpa using hMatch)] at h
        obtain rfl := Option.some.inj h
        rw [List.findIdx_cons, decide_eq_true hMatch] at hd
        rcases List.mem_cons.mp hd with rfl | hd
        · exact .inr rfl
        · exact .inl (List.mem_cons_of_mem e hd)
      · rw [List.find?_cons_of_neg (by simpa using hMatch)] at h
        rw [List.findIdx_cons, decide_eq_false hMatch] at hd
        rcases List.mem_cons.mp hd with rfl | hd
        · exact .inl List.mem_cons_self
        · exact (ih h hd).imp_left (List.mem_cons_of_mem e)

/-! ## A call -/

variable {mode : Mode} {e : Status} {data : Bytes} {fs : Option FileSet} {s : State}

theorem add_of_found (hAccepts : accepts env loc e data = true)
    (h : Found env now (trim env now chain) loc a (some mode) c) :
    add env now loc a mode e data fs chain
      = modifyFirst now (trim env now chain) loc a (some mode) (·.setData now e data fs) := by
  rw [add, if_pos hAccepts, findEntry_of_found h]

/-- `Add` leaves entries as they are, makes one, or puts the result into the one it finds. -/
theorem mem_add {d : Timed} (hd : d ∈ add env now loc a mode e data fs chain) :
    d ∈ chain ∨ d = create env now loc a mode e data fs ∨
      accepts env loc e data = true ∧ ∃ c, Found env now (trim env now chain) loc a (some mode) c
        ∧ c ∈ chain ∧ d = c.setData now e data fs := by
  by_cases hAccepts : accepts env loc e data = true
  · cases hFind : findEntry env now (trim env now chain) loc a (some mode) with
    | mk found chain' =>
        cases found with
        | none =>
            rw [add, if_pos hAccepts, hFind] at hd
            have hSub := List.Subset.trans (findEntry_eq_none hFind) (trim_subset chain)
            dsimp only at hd
            split at hd
            · rcases List.mem_cons.mp hd with rfl | hd
              · exact .inr (.inl rfl)
              · exact .inl (hSub hd)
            · exact .inl (hSub hd)
        | some c =>
            have hFound := found_iff.mp (congrArg Prod.fst hFind)
            rw [add_of_found hAccepts hFound] at hd
            have hMem := trim_subset chain (List.mem_of_find?_eq_some hFound.first)
            rcases mem_modifyFirst hFound.first hd with hd | rfl
            · exact .inl (trim_subset chain hd)
            · exact .inr (.inr ⟨hAccepts, c, hFound, hMem, rfl⟩)
  · rw [add, if_neg hAccepts] at hd
    exact .inl hd

/-- All results are due no sooner than their entries. -/
def Bounded (env : Settings) (s : State) : Prop :=
  ∀ c ∈ s.chain, c.StopsBy env c.ok c.since

theorem Bounded.step (h : Bounded env s) {o : Event} (hDue : Due env s o) :
    Bounded env (step env s o) := by
  obtain ⟨wait, op⟩ := o
  cases op with
  | add loc a mode e data fs =>
      intro d hd
      rcases mem_add hd with hd | rfl | ⟨hAccepts, c, hFound, -, rfl⟩
      · exact h d hd
      · unfold Timed.StopsBy create
        dsimp only
        cases (env.expire (e = .ok) loc.hostname).infty with
        | true => exact .inl rfl
        | false => exact .inr ⟨rfl, le_rfl⟩
      · exact hDue hAccepts c (found_iff.mpr hFound)
  | find loc a m => exact fun d hd => h d (findEntry_subset _ hd)
  | findFileSet loc a m =>
      intro d hd
      rw [LsCacheExpiry.step] at hd
      dsimp only at hd
      cases hFind : findEntry env (s.now + wait) s.chain loc a m with
      | mk found chain' =>
          cases found with
          | none =>
              rw [findFileSet, hFind] at hd
              exact h d (findEntry_eq_none hFind hd)
          | some c =>
              have hFound := found_iff.mp (congrArg Prod.fst hFind)
              rw [findFileSet, findEntry_of_found hFound] at hd
              rcases mem_modifyFirst hFound.first hd with hd | rfl
              · exact h d hd
              · exact h c (List.mem_of_find?_eq_some hFound.first)

theorem Timed.StopsBy.young (h : c.StopsBy env c.ok c.since) (hRunning : c.stopped now = false) :
    c.Young env now := by
  rcases h with hInfty | ⟨hFinite, hLe⟩
  · exact .inl hInfty
  · have hNow : now < c.start + c.lastSetting.diff := by
      simpa [Timed.stopped, hFinite] using hRunning
    exact .inr (by omega)

theorem Bounded.fresh (h : Bounded env s) : Fresh env s := fun _ _ _ _ c hFind =>
  have hFound := found_iff.mp hFind
  (h c (List.mem_of_find?_eq_some hFound.first)).young hFound.running

/-- An entry that runs and stops after a time to come still runs then. -/
theorem stopped_late {d : Int} (hRunning : c.stopped now = false)
    (hLate : c.lastSetting.infty = false → now + d < c.start + c.lastSetting.diff) :
    c.stopped (now + d.toNat) = false := by
  unfold Timed.stopped at hRunning ⊢
  cases hInfty : c.lastSetting.infty with
  | true => rfl
  | false =>
      have hNow : now < c.start + c.lastSetting.diff := by simpa [hInfty] using hRunning
      have hThen := hLate hInfty
      have hLt : now + d.toNat < c.start + c.lastSetting.diff := by omega
      simpa using hLt

/-- A result that is due before the entry it is put into is found after its time. -/
theorem due_of_fresh {o : Event} (h : Fresh env (step env s o)) : Due env s o := by
  obtain ⟨wait, op⟩ := o
  cases op with
  | add loc a mode e data fs =>
      intro hAccepts c hFind
      have hFound := found_iff.mp hFind
      by_contra hNot
      obtain ⟨hFinite, hLate⟩ := not_or.mp hNot
      -- the moment from which on the new result is too old
      let late := (env.expire (e = .ok) c.loc.hostname).diff.toNat
      have hRunning : c.stopped (s.now + wait + late) = false :=
        stopped_late hFound.running fun hInfty => not_le.mp fun hLe => hLate ⟨hInfty, hLe⟩
      have hFirst := find?_modifyFirst (f := (·.setData (s.now + wait) e data fs))
        (fun _ => Iff.rfl) hFound.first
      have hYoung := h late loc a (some mode) (c.setData (s.now + wait) e data fs)
        (found_iff.mpr ⟨hFound.enabled, by
          rw [step]
          dsimp only
          rw [add_of_found hAccepts hFound]
          exact hFirst, hRunning⟩)
      rcases hYoung with hInfty | hLt
      · exact hFinite hInfty
      · have hLe := Int.self_le_toNat (env.expire (e = .ok) c.loc.hostname).diff
        change s.now + wait + late - (s.now + wait) < (env.expire (e = .ok) c.loc.hostname).diff at hLt
        omega
  | find loc a m => trivial
  | findFileSet loc a m => trivial

end

/-- From an empty cache, whatever is added and looked up and when, lookups return young results
exactly when results are put into entries that stop before they are due. -/
theorem fresh_iff (now : Int) (os : List Event) :
    (∀ os', os' <+: os → Fresh env (os'.foldl (step env) ⟨now, []⟩))
      ↔ AllOk (step env) (Due env) ⟨now, []⟩ os :=
  allOk_iff_of_bad (J := Bounded env) (Q := Fresh env) (fun _ _ h hDue => h.step hDue)
    (fun _ h => h.fresh) (fun _ _ h => due_of_fresh h) (fun _ h => absurd h List.not_mem_nil) os

/-- The defaults: an hour, and a minute for an error. -/
def defaults : Settings where
  enabled := fun _ => true
  sizeLimit := 16777216
  estimateSize := fun c => c.data.length
  parseLongList := fun _ _ => none
  cacheEmptyListings := fun _ => false
  expire := fun ok _ => ⟨if ok then 3600000000 else 60000000, false⟩

/-- A listing, and a second later the error that the directory is not there. -/
def vanished : List Event :=
  let session := LsCache.sessionAt .ftp (bytes "/pub")
  [⟨0, .add session (some []) .list .ok (bytes "a") none⟩,
    ⟨1000000, .add session (some []) .list .noFile (bytes "550") none⟩]

/-- The error is still returned after ten minutes. -/
theorem not_fresh :
    ¬ ∀ (env : Settings) (now : Int) (os os' : List Event),
      os' <+: os → Fresh env (os'.foldl (step env) ⟨now, []⟩) := by
  intro h
  have hYoung := h defaults 0 vanished vanished (List.prefix_refl _) 600000000
    (LsCache.sessionAt .ftp (bytes "/pub")) (some []) (some .list) _ rfl
  rcases hYoung with hInfty | hLt
  · cases hInfty
  · exact absurd hLt (by decide)

end Lftp.Ports.LsCacheExpiry
