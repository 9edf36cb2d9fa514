import Mathlib.Data.List.Nodup
import Mathlib.Data.List.Perm.Subperm
import Lftp.Ports.XMap
import Lftp.Verified.Assoc
import Lftp.Verified.Loop

/-!
# The cache of file descriptors

`FDCache` keeps the files of the torrents open for a while. A file that could not be opened has an
entry too, with the error. The three tables, one for each access mode, are one listing here; it may
be enumerated in any order, as that of an `xmap`.

A descriptor is the lowest number that is free, as `open` promises. What the rest of the program has
open may change at any time.

* `Exact` is the invariant: what is open for the cache is what its entries say, and nothing twice.
* `fdCache_exact`: in every run none is closed twice, none is lost, and at most 17 are open.
* `openFile_opens`: what is returned is open for the file.
* `openFile_chops_all`: when there are too many open files, a torrent lets all its peers go, for
  nothing.
-/

namespace Lftp.Ports.FDCache

open Lftp.Verified
open Lftp.Verified.Assoc
open Lftp.Ports.XMap (toInt)

/-! ## The cache -/

def oRdonly : Nat := 0
def oRdwr : Nat := 2
def eNfile : Nat := 23
def eMfile : Nat := 24

/-- `max_count` -/
def maxCount : Nat := 16

/-- `max_time` -/
def maxTime : Int := 30

/-- The table of an entry, and its key there. -/
structure Key where
  mode : Nat
  name : Bytes
deriving DecidableEq

/-- A time of the clock. An entry with the time 0 would be taken for none. -/
abbrev Time := { t : Int // t ≠ 0 }

/-- `FDCache::FD`; there is no descriptor where the source has -1. -/
structure FD where
  fd : Option Nat
  savedErrno : Nat
  lastUsed : Time
deriving DecidableEq

/-- The lowest number that is not in the list. -/
def lowestFree (l : List Nat) : Nat := ((List.range (l.length + 1)).find? fun n => n ∉ l).getD 0

structure State where
  cache : List (Key × FD)
  /-- The descriptors opened for the cache and not closed, and what they were opened for. -/
  opened : List (Nat × Key)
  /-- Those that the rest of the program has open. -/
  others : List Nat

namespace State

def new : State := ⟨[], [], []⟩

/-- `Count` -/
def count (s : State) : Nat := s.cache.length

/-- `close`; it is a fault when the descriptor is not open for the cache. -/
def closeFd (s : State) (n : Nat) : Option State :=
  if n ∈ keys s.opened then some { s with opened := s.opened.filter fun e => e.1 ≠ n } else none

def remove (s : State) (k : Key) : State := { s with cache := s.cache.filter fun e => e.1 ≠ k }

/-- Closes what an entry has open, and removes the entry. -/
def drop (s : State) (e : Key × FD) : Option State :=
  match e.2.fd with
  | none => some (s.remove e.1)
  | some n => (s.closeFd n).map fun s => s.remove e.1

/-- The choice of `CloseOne`; `oldest_time` is an `int`. -/
def older (oldest : Option (Key × FD)) (e : Key × FD) : Option (Key × FD) :=
  if e.2.fd = none then oldest
  else
    match oldest with
    | none => some e
    | some o => if e.2.lastUsed.1 < toInt o.2.lastUsed.1 then some e else some o

/-- `CloseOne` -/
def closeOne (s : State) : Option (Bool × State) :=
  match s.cache.foldl older none with
  | none => some (false, s)
  | some e => (s.drop e).map fun s => (true, s)

/-- `while(Count()>max_count && CloseOne())` -/
def shrink : Nat → State → Option State
  | 0, _ => none
  | fuel + 1, s =>
    if s.count ≤ maxCount then some s
    else
      match s.closeOne with
      | none => none
      | some (false, s) => some s
      | some (true, s) => shrink fuel s

/-- What `Clean` removes: an error after a second, a descriptor after `max_time`. -/
def expired (now : Time) (e : Key × FD) : Bool :=
  match e.2.fd with
  | none => e.2.lastUsed.1 + 1 < now.1
  | some _ => e.2.lastUsed.1 + maxTime < now.1

/-- `Clean` -/
def clean (now : Time) (s : State) : Option State :=
  ((s.cache.filter (expired now)).foldlM drop s).bind fun s => shrink (s.count + 1) s

/-- `Close` -/
def close (file : Bytes) (s : State) : Option State :=
  (s.cache.filter fun e => e.1.name = file).foldlM drop s

/-- `CloseAll` -/
def closeAll (s : State) : Option State := s.cache.foldlM drop s

/-- The loop around `open`, which fails with `errors i` when it is called for the `i`-th time. -/
def openLoop (errors : Nat → Option Nat) (k : Key) : Nat → Nat → State →
    Option (Except Nat Nat × State)
  | 0, _, _ => none
  | fuel + 1, i, s =>
    match errors i with
    | none =>
      let n := lowestFree (keys s.opened ++ s.others)
      some (.ok n, { s with opened := (n, k) :: s.opened })
    | some errno =>
      if errno = eMfile ∨ errno = eNfile then
        match s.closeOne with
        | none => none
        | some (false, s) => some (.error errno, s)
        | some (true, s) => openLoop errors k fuel (i + 1) s
      else some (.error errno, s)

/-- `new_entry`; nobody asks for the error of a file that is open. -/
def newEntry (now : Time) : Except Nat Nat → FD
  | .ok n => ⟨some n, 0, now⟩
  | .error errno => ⟨none, errno, now⟩

/-- `OpenFile`: the descriptor, or -1 and `errno`. -/
def openFile (file : Bytes) (m : Nat) (now : Time) (errors : Nat → Option Nat) (s : State) :
    Option (Except Nat Nat × State) :=
  let key : Key := ⟨m % 4, file⟩
  if key.mode = 3 then none
  else
    match s.cache.lookup key with
    | some f =>
      match f.fd with
      | some n =>
        some (.ok n, { s with
          cache := s.cache.map fun e =>
            (e.1, if e.1 = key then { e.2 with lastUsed := now } else e.2) })
      | none => some (.error f.savedErrno, s)
    | none =>
      -- `O_RDWR` also will do
      match (if key.mode = oRdonly then (s.cache.lookup ⟨oRdwr, file⟩).bind FD.fd else none) with
      | some n => some (.ok n, s)
      | none =>
        (s.clean now).bind fun s =>
          (openLoop errors key (s.count + 1) 0 s).map fun (answer, s) =>
            (answer, { s with cache := add key (newEntry now answer) s.cache })

end State

/-! ## The files of a torrent -/

def eNoent : Nat := 2

/-- The loop of `Torrent::OpenFile`: for each further try a peer is let go. -/
def State.retry (file : Bytes) (m : Nat) (now : Time) (errors : Nat → Nat → Option Nat) :
    Nat → Except Nat Nat → State → Option (Nat × Except Nat Nat × State)
  | 0, answer, s => some (0, answer, s)
  | peers + 1, answer, s =>
    match answer with
    | .ok n => some (peers + 1, .ok n, s)
    | .error errno =>
      if errno = eMfile ∨ errno = eNfile then
        (s.openFile file m now (errors peers)).bind fun (answer, s) =>
          retry file m now errors peers answer s
      else some (peers + 1, .error errno, s)

/-- What `Torrent::OpenFile` works on: the number of peers, and the cache. -/
structure Torrent where
  peers : Nat
  fdCache : State

/-- `Torrent::OpenFile` from `try_again` to the removal of the negative cache. -/
def Torrent.tryOpen (validating : Bool) (cf : Bytes) (m : Nat) (now : Time)
    (errors : Nat → Nat → Option Nat) (t : Torrent) : Option (Except Nat Nat × Torrent) :=
  (t.fdCache.openFile cf m now (errors t.peers)).bind fun (answer, s) =>
    (s.retry cf m now errors t.peers answer).bind fun (peers, answer, s) =>
      match validating, answer with
      | false, .error errno => (s.close cf).map fun s => (.error errno, ⟨peers, s⟩)
      | _, answer => some (answer, ⟨peers, s⟩)

/-- `Torrent::OpenFile`; the directories that it makes show in the errors of the second try. -/
def Torrent.openFile (t : Torrent) (validating : Bool) (cf : Bytes) (m : Nat) (now : Time)
    (errors : Bool → Nat → Nat → Option Nat) : Option (Except Nat Nat × Torrent) :=
  (t.tryOpen validating cf m now (errors false)).bind fun (answer, t) =>
    match validating, answer with
    | false, .error errno =>
      if errno = eNoent then t.tryOpen validating cf m now (errors true)
      else some (.error errno, t)
    | _, answer => some (answer, t)

/-! ## Runs -/

inductive Event where
  | openFile (file : Bytes) (m : Nat) (now : Time) (errors : Nat → Option Nat)
  | close (file : Bytes)
  | clean (now : Time)
  | closeAll
  /-- The table is enumerated in another order. -/
  | reorder (cache : List (Key × FD))
  /-- The rest of the program opens and closes what is its own. -/
  | others (descriptors : List Nat)

/-- The assertion of `OpenFile`. -/
def Event.Asserted : Event → Prop
  | .openFile _ m _ _ => m % 4 ≠ 3
  | _ => True

/-- An order of other entries, and descriptors that are in use, are left out of account. -/
def State.act (s : State) : Event → Option State
  | .openFile file m now errors => (s.openFile file m now errors).map Prod.snd
  | .close file => s.close file
  | .clean now => s.clean now
  | .closeAll => s.closeAll
  | .reorder cache => some (if cache.Perm s.cache then { s with cache := cache } else s)
  | .others descriptors =>
    some (if ∀ n ∈ keys s.opened, n ∉ descriptors then { s with others := descriptors } else s)

/-! ## Free descriptors -/

theorem lowestFree_notMem (l : List Nat) : lowestFree l ∉ l := by
  unfold lowestFree
  cases hFind : (List.range (l.length + 1)).find? fun n => n ∉ l with
  | some n => simpa using List.find?_some hFind
  | none =>
      have hAll : List.range (l.length + 1) ⊆ l := by
        intro n hn
        simpa using List.find?_eq_none.mp hFind n hn
      have hLe := (List.nodup_range.subperm hAll).length_le
      rw [List.length_range] at hLe
      omega

/-! ## The invariant -/

/-- What is open for the cache is what its entries say. -/
structure Exact (s : State) : Prop where
  names : (keys s.cache).Nodup
  descriptors : (keys s.opened).Nodup
  others : ∀ n ∈ keys s.opened, n ∉ s.others
  entries : ∀ n k, (n, k) ∈ s.opened ↔ ∃ f, (k, f) ∈ s.cache ∧ f.fd = some n

section Steps

variable {s s' : State} {e : Key × FD} {n : Nat} {k : Key} {f : FD}

theorem exact_new : Exact State.new :=
  ⟨List.nodup_nil, List.nodup_nil, fun _ h => absurd h List.not_mem_nil,
    fun _ _ => ⟨fun h => absurd h List.not_mem_nil, fun ⟨_, h, _⟩ => absurd h List.not_mem_nil⟩⟩

theorem mem_keys {α β : Type} {a : α} {l : List (α × β)} : a ∈ keys l ↔ ∃ b, (a, b) ∈ l := by
  simp [keys]

theorem eq_of_mem {α β : Type} {a : α} {b b' : β} {l : List (α × β)} (h : (keys l).Nodup)
    (hb : (a, b) ∈ l) (hb' : (a, b') ∈ l) : b = b' :=
  congrArg Prod.snd (List.inj_on_of_nodup_map h hb hb' rfl)

/-- A step that opens nothing. -/
structure Shrinks (s s' : State) : Prop where
  opened : s'.opened.length ≤ s.opened.length
  cache : ∀ e ∈ s'.cache, e ∈ s.cache
  others : s'.others = s.others

theorem Shrinks.refl (s : State) : Shrinks s s := ⟨Nat.le_refl _, fun _ h => h, rfl⟩

theorem Shrinks.trans {s'' : State} (h : Shrinks s s') (h' : Shrinks s' s'') : Shrinks s s'' :=
  ⟨Nat.le_trans h'.opened h.opened, fun e he => h.cache e (h'.cache e he), h'.others.trans h.others⟩

/-- An entry is dropped with what it has open. -/
theorem Exact.drop (h : Exact s) (he : e ∈ s.cache) :
    ∃ s', s.drop e = some s' ∧ Exact s' ∧ Shrinks s s'
      ∧ s'.cache = s.cache.filter fun d => d.1 ≠ e.1 := by
  obtain ⟨k, f⟩ := e
  have hNames : (keys (s.cache.filter fun d => d.1 ≠ k)).Nodup :=
    h.names.sublist (List.filter_sublist.map Prod.fst)
  have hCache : ∀ d ∈ s.cache.filter (fun d => d.1 ≠ k), d ∈ s.cache :=
    fun d hd => (List.mem_filter.mp hd).1
  cases hf : f.fd with
  | none =>
      refine ⟨s.remove k, by simp [State.drop, hf], ⟨hNames, h.descriptors, h.others, ?_⟩,
        ⟨Nat.le_refl _, hCache, rfl⟩, rfl⟩
      intro n j
      rw [show (s.remove k).opened = s.opened from rfl, h.entries]
      refine exists_congr fun g => and_congr_left fun hg => ?_
      refine ⟨fun hMem => List.mem_filter.mpr ⟨hMem, ?_⟩, fun hMem => hCache _ hMem⟩
      refine decide_eq_true fun hKey => ?_
      obtain rfl := eq_of_mem h.names he (by rw [← hKey]; exact hMem)
      rw [hf] at hg
      cases hg
  | some n =>
      have hOpen : (n, k) ∈ s.opened := (h.entries n k).mpr ⟨f, he, hf⟩
      have hMem : n ∈ keys s.opened := mem_keys.mpr ⟨k, hOpen⟩
      refine ⟨{ s with
          opened := s.opened.filter fun d => d.1 ≠ n, cache := s.cache.filter fun d => d.1 ≠ k },
        by simp [State.drop, hf, State.closeFd, hMem, State.remove], ⟨hNames, ?_, ?_, ?_⟩,
        ⟨List.length_filter_le _ _, hCache, rfl⟩, rfl⟩
      · exact h.descriptors.sublist (List.filter_sublist.map Prod.fst)
      · intro m hm
        obtain ⟨j, hj⟩ := mem_keys.mp hm
        exact h.others m (mem_keys.mpr ⟨j, (List.mem_filter.mp hj).1⟩)
      · intro m j
        show (m, j) ∈ s.opened.filter (fun d => d.1 ≠ n)
          ↔ ∃ g, (j, g) ∈ s.cache.filter (fun d => d.1 ≠ k) ∧ g.fd = some m
        simp only [List.mem_filter, decide_eq_true_eq, h.entries]
        constructor
        · rintro ⟨⟨g, hg, hgm⟩, hNe⟩
          refine ⟨g, ⟨hg, fun hKey => hNe ?_⟩, hgm⟩
          obtain rfl := eq_of_mem h.names he (by rw [← hKey]; exact hg)
          exact Option.some.inj (hgm.symm.trans hf)
        · rintro ⟨g, ⟨hg, hNe⟩, hgm⟩
          refine ⟨⟨g, hg, hgm⟩, fun hSame => hNe ?_⟩
          have hBoth : (m, j) ∈ s.opened := (h.entries m j).mpr ⟨g, hg, hgm⟩
          exact eq_of_mem h.descriptors hBoth (by rw [hSame]; exact hOpen)

/-- A loop that drops some of the entries. -/
theorem Exact.dropAll {l : List (Key × FD)} (h : Exact s) (hl : ∀ e ∈ l, e ∈ s.cache)
    (hKeys : (keys l).Nodup) : ∃ s', l.foldlM State.drop s = some s' ∧ Exact s' ∧ Shrinks s s'
      ∧ s'.cache = s.cache.filter fun d => d.1 ∉ keys l := by
  induction l generalizing s with
  | nil => exact ⟨s, rfl, h, .refl s, by simp⟩
  | cons e l ih =>
      obtain ⟨hNot, hNodup⟩ := List.nodup_cons.mp hKeys
      obtain ⟨s', hDrop, hExact, hShrinks, hCache⟩ := h.drop (hl e List.mem_cons_self)
      have hRest : ∀ d ∈ l, d ∈ s'.cache := by
        intro d hd
        rw [hCache]
        refine List.mem_filter.mpr ⟨hl d (List.mem_cons_of_mem e hd), decide_eq_true fun hKey => ?_⟩
        exact hNot (hKey ▸ List.mem_map_of_mem hd)
      obtain ⟨s'', hAll, hExact', hShrinks', hCache'⟩ := ih hExact hRest hNodup
      refine ⟨s'', ?_, hExact', hShrinks.trans hShrinks', ?_⟩
      · rw [List.foldlM_cons, hDrop]
        exact hAll
      · rw [hCache', hCache, List.filter_filter]
        refine List.filter_congr fun d _ => ?_
        rw [Bool.eq_iff_iff]
        simp [not_or, and_comm]

/-- No more is open than there are entries. -/
theorem Exact.opened_le (h : Exact s) : s.opened.length ≤ s.count := by
  have hNodup : (s.opened.map Prod.snd).Nodup := by
    refine List.Nodup.map_on (fun d hd d' hd' hKey => ?_) h.descriptors.of_map
    obtain ⟨f, hf, hn⟩ := (h.entries d.1 d.2).mp hd
    obtain ⟨f', hf', hn'⟩ := (h.entries d'.1 d'.2).mp hd'
    obtain rfl := eq_of_mem h.names hf (by rw [hKey]; exact hf')
    exact Prod.ext (Option.some.inj (hn.symm.trans hn')) hKey
  have hSubset : s.opened.map Prod.snd ⊆ keys s.cache := by
    intro k hk
    obtain ⟨d, hd, rfl⟩ := List.mem_map.mp hk
    obtain ⟨f, hf, -⟩ := (h.entries d.1 d.2).mp hd
    exact mem_keys.mpr ⟨f, hf⟩
  have hLe := (hNodup.subperm hSubset).length_le
  rwa [List.length_map, keys, List.length_map] at hLe

theorem foldl_older (l : List (Key × FD)) (o : Option (Key × FD)) :
    (l.foldl State.older o = none ↔ o = none ∧ ∀ e ∈ l, e.2.fd = none)
      ∧ ∀ e, l.foldl State.older o = some e → o = some e ∨ e ∈ l := by
  induction l generalizing o with
  | nil => simp
  | cons d l ih =>
      obtain ⟨hNone, hSome⟩ := ih (State.older o d)
      have hOlder : State.older o d = none ↔ o = none ∧ d.2.fd = none := by
        unfold State.older
        split
        · next hClosed => simp [hClosed]
        · next hOpen =>
          split
          · simp [hOpen]
          · split <;> simp
      have hChoice (e : Key × FD) (he : State.older o d = some e) : o = some e ∨ e = d := by
        unfold State.older at he
        split at he
        · exact .inl he
        · split at he
          · exact .inr (Option.some.inj he).symm
          · split at he
            · exact .inr (Option.some.inj he).symm
            · exact .inl he
      rw [List.foldl_cons]
      refine ⟨?_, fun e he => ?_⟩
      · rw [hNone, hOlder, List.forall_mem_cons, and_assoc]
      · rcases hSome e he with h | h
        · rcases hChoice e h with h | rfl
          · exact .inl h
          · exact .inr List.mem_cons_self
        · exact .inr (List.mem_cons_of_mem d h)

/-- `CloseOne` closes one, if there is any. -/
theorem Exact.closeOne (h : Exact s) : ∃ b s', s.closeOne = some (b, s') ∧ Exact s' ∧ Shrinks s s'
    ∧ (b = true → s'.count < s.count) ∧ (b = false → s'.opened = []) := by
  unfold State.closeOne
  obtain ⟨hNone, hSome⟩ := foldl_older s.cache none
  cases hOldest : s.cache.foldl State.older none with
  | none =>
      refine ⟨false, s, rfl, h, .refl s, nofun, fun _ => ?_⟩
      refine List.eq_nil_iff_forall_not_mem.mpr fun d hd => ?_
      obtain ⟨f, hf, hn⟩ := (h.entries d.1 d.2).mp hd
      rw [(hNone.mp hOldest).2 _ hf] at hn
      cases hn
  | some e =>
      have he : e ∈ s.cache := (hSome e hOldest).resolve_left nofun
      obtain ⟨s', hDrop, hExact, hShrinks, hCache⟩ := h.drop he
      refine ⟨true, s', by simp [hDrop], hExact, hShrinks, fun _ => ?_, nofun⟩
      unfold State.count
      rw [hCache, List.length_filter_lt_length_iff_exists]
      exact ⟨e, he, by simp⟩

theorem Exact.shrink {fuel : Nat} (h : Exact s) (hFuel : s.count < fuel) :
    ∃ s', State.shrink fuel s = some s' ∧ Exact s' ∧ Shrinks s s' ∧ s'.opened.length ≤ maxCount := by
  induction fuel generalizing s with
  | zero => exact absurd hFuel (Nat.not_lt_zero _)
  | succ fuel ih =>
      unfold State.shrink
      by_cases hCount : s.count ≤ maxCount
      · rw [if_pos hCount]
        exact ⟨s, rfl, h, .refl s, Nat.le_trans h.opened_le hCount⟩
      · rw [if_neg hCount]
        obtain ⟨b, s', hOne, hExact, hShrinks, hLess, hNone⟩ := h.closeOne
        rw [hOne]
        cases b with
        | false =>
            refine ⟨s', rfl, hExact, hShrinks, ?_⟩
            rw [hNone rfl]
            exact Nat.zero_le _
        | true =>
            have hLess := hLess rfl
            obtain ⟨s'', hRest, hExact', hShrinks', hLe⟩ := ih hExact (by omega)
            exact ⟨s'', hRest, hExact', hShrinks.trans hShrinks', hLe⟩

theorem keys_filter_nodup {p : Key × FD → Bool} (h : Exact s) : (keys (s.cache.filter p)).Nodup :=
  h.names.sublist (List.filter_sublist.map Prod.fst)

theorem Exact.clean (h : Exact s) (now : Time) :
    ∃ s', s.clean now = some s' ∧ Exact s' ∧ Shrinks s s' ∧ s'.opened.length ≤ maxCount := by
  obtain ⟨t, hDrop, hExact, hShrinks, -⟩ :=
    h.dropAll (fun e he => (List.mem_filter.mp he).1) (keys_filter_nodup (p := State.expired now) h)
  obtain ⟨s', hShrink, hExact', hShrinks', hLe⟩ := hExact.shrink (Nat.lt_succ_self _)
  refine ⟨s', ?_, hExact', hShrinks.trans hShrinks', hLe⟩
  unfold State.clean
  rw [hDrop]
  exact hShrink

/-- An entry for an error. -/
theorem Exact.addError (h : Exact s) (hNew : k ∉ keys s.cache) (errno : Nat) (now : Time) :
    Exact { s with cache := add k (State.newEntry now (.error errno)) s.cache } := by
  rw [add_of_notMem _ hNew]
  refine ⟨?_, h.descriptors, h.others, fun n j => ?_⟩
  · show (keys (s.cache ++ [(k, _)])).Nodup
    rw [keys_append]
    exact h.names.append (List.nodup_singleton k) (by simpa using hNew)
  · show (n, j) ∈ s.opened ↔ ∃ f, (j, f) ∈ s.cache ++ [_] ∧ f.fd = some n
    rw [h.entries]
    refine exists_congr fun f => and_congr_left fun hf => ?_
    rw [List.mem_append, or_iff_left]
    rintro hMem
    cases List.mem_singleton.mp hMem
    cases hf

/-- An entry for a descriptor that was free. -/
theorem Exact.addOpen (h : Exact s) (hNew : k ∉ keys s.cache) (now : Time)
    (hFree : n ∉ keys s.opened ++ s.others) :
    Exact { s with
      opened := (n, k) :: s.opened, cache := add k (State.newEntry now (.ok n)) s.cache } := by
  rw [List.mem_append, not_or] at hFree
  rw [add_of_notMem _ hNew]
  refine ⟨?_, List.nodup_cons.mpr ⟨hFree.1, h.descriptors⟩, ?_, fun m j => ?_⟩
  · show (keys (s.cache ++ [(k, _)])).Nodup
    rw [keys_append]
    exact h.names.append (List.nodup_singleton k) (by simpa using hNew)
  · intro m hm
    rcases List.mem_cons.mp hm with rfl | hm
    · exact hFree.2
    · exact h.others m hm
  · show (m, j) ∈ (n, k) :: s.opened ↔ ∃ f, (j, f) ∈ s.cache ++ [_] ∧ f.fd = some m
    rw [List.mem_cons, h.entries]
    constructor
    · rintro (hEq | ⟨f, hf, hm⟩)
      · cases hEq
        exact ⟨_, List.mem_append_right _ List.mem_cons_self, rfl⟩
      · exact ⟨f, List.mem_append_left _ hf, hm⟩
    · rintro ⟨f, hMem, hm⟩
      rcases List.mem_append.mp hMem with hf | hf
      · exact .inr ⟨f, hf, hm⟩
      · cases List.mem_singleton.mp hf
        exact .inl (by rw [Option.some.inj hm])

/-- The loop around `open` ends, and its answer can be entered. -/
theorem Exact.openLoop (h : Exact s) (hNew : k ∉ keys s.cache) (now : Time)
    (errors : Nat → Option Nat) {fuel : Nat} (hFuel : s.count < fuel) (i : Nat) :
    ∃ answer s', State.openLoop errors k fuel i s = some (answer, s')
      ∧ Exact { s' with cache := add k (State.newEntry now answer) s'.cache }
      ∧ s'.opened.length ≤ s.opened.length + 1 ∧ k ∉ keys s'.cache
      ∧ ∀ n, answer = .ok n → (n, k) ∈ s'.opened := by
  induction fuel generalizing s i with
  | zero => exact absurd hFuel (Nat.not_lt_zero _)
  | succ fuel ih =>
      unfold State.openLoop
      cases errors i with
      | none =>
          refine ⟨_, _, rfl, h.addOpen hNew now (lowestFree_notMem _), Nat.le_refl _, hNew, ?_⟩
          intro n hn
          cases hn
          exact List.mem_cons_self
      | some errno =>
          dsimp only
          by_cases hMany : errno = eMfile ∨ errno = eNfile
          · rw [if_pos hMany]
            obtain ⟨b, s', hOne, hExact, hShrinks, hLess, -⟩ := h.closeOne
            have hNew' : k ∉ keys s'.cache := fun hMem => by
              obtain ⟨f, hf⟩ := mem_keys.mp hMem
              exact hNew (mem_keys.mpr ⟨f, hShrinks.cache _ hf⟩)
            rw [hOne]
            cases b with
            | false =>
                refine ⟨_, s', rfl, hExact.addError hNew' errno now, ?_, hNew', nofun⟩
                exact Nat.le_succ_of_le hShrinks.opened
            | true =>
                have hLess := hLess rfl
                obtain ⟨answer, s'', hLoop, hExact', hLe, hNew'', hOk⟩ :=
                  ih hExact hNew' (by omega) (i + 1)
                have hLe' := hShrinks.opened
                exact ⟨answer, s'', hLoop, hExact', by omega, hNew'', hOk⟩
          · rw [if_neg hMany]
            exact ⟨_, s, rfl, h.addError hNew errno now, Nat.le_succ _, hNew, nofun⟩

/-- A new time for an entry. -/
theorem Exact.touch (h : Exact s) (now : Time) :
    Exact { s with cache := s.cache.map fun e =>
      (e.1, if e.1 = k then { e.2 with lastUsed := now } else e.2) } := by
  have hSame : ∀ e : Key × FD,
      (if e.1 = k then { e.2 with lastUsed := now } else e.2).fd = e.2.fd := by
    intro e
    split <;> rfl
  refine ⟨?_, h.descriptors, h.others, fun n j => ?_⟩
  · have hKeys : keys (s.cache.map fun e =>
        (e.1, if e.1 = k then { e.2 with lastUsed := now } else e.2)) = keys s.cache := by
      simp [keys, Function.comp_def]
    rw [hKeys]
    exact h.names
  · rw [show (n, j) ∈ s.opened ↔ _ from h.entries n j]
    constructor
    · rintro ⟨f, hf, hn⟩
      exact ⟨_, List.mem_map_of_mem hf, (hSame (j, f)).trans hn⟩
    · rintro ⟨f, hf, hn⟩
      obtain ⟨e, he, hEq⟩ := List.mem_map.mp hf
      cases hEq
      exact ⟨e.2, he, (hSame e).symm.trans hn⟩

theorem Exact.lookup (h : Exact s) : s.cache.lookup k = some f ↔ (k, f) ∈ s.cache :=
  lookup_eq_some_iff h.names

/-- The cache has an error for the file. -/
def Negative (s : State) (k : Key) (errno : Nat) : Prop :=
  ∃ f, s.cache.lookup k = some f ∧ f.fd = none ∧ f.savedErrno = errno

theorem Exact.openFile (h : Exact s) (file : Bytes) {m : Nat} (hm : m % 4 ≠ 3) (now : Time)
    (errors : Nat → Option Nat) : ∃ answer s', s.openFile file m now errors = some (answer, s')
      ∧ Exact s' ∧ s'.opened.length ≤ max s.opened.length (maxCount + 1)
      ∧ (∀ n, answer = .ok n → (n, ⟨m % 4, file⟩) ∈ s'.opened
        ∨ m % 4 = oRdonly ∧ (n, ⟨oRdwr, file⟩) ∈ s'.opened)
      ∧ ∀ errno, answer = .error errno → Negative s' ⟨m % 4, file⟩ errno := by
  unfold State.openFile
  dsimp only
  rw [if_neg hm]
  cases hLookup : s.cache.lookup ⟨m % 4, file⟩ with
  | some f =>
      dsimp only
      cases hf : f.fd with
      | some n =>
          refine ⟨_, _, rfl, h.touch now, Nat.le_max_left _ _, fun n' hn => .inl ?_, nofun⟩
          cases hn
          exact (h.entries n _).mpr ⟨f, h.lookup.mp hLookup, hf⟩
      | none =>
          refine ⟨_, s, rfl, h, Nat.le_max_left _ _, nofun, fun errno hErrno => ?_⟩
          cases hErrno
          exact ⟨f, hLookup, hf, rfl⟩
  | none =>
      have hNew : (⟨m % 4, file⟩ : Key) ∉ keys s.cache := lookup_eq_none_iff.mp hLookup
      dsimp only
      cases hOther : (if m % 4 = oRdonly then (s.cache.lookup ⟨oRdwr, file⟩).bind FD.fd
        else none) with
      | some n =>
          dsimp only
          split at hOther
          · next hRead =>
            obtain ⟨f, hf, hn⟩ := Option.bind_eq_some_iff.mp hOther
            refine ⟨_, s, rfl, h, Nat.le_max_left _ _, fun n' hn' => .inr ⟨hRead, ?_⟩, nofun⟩
            cases hn'
            exact (h.entries n _).mpr ⟨f, h.lookup.mp hf, hn⟩
          · cases hOther
      | none =>
          dsimp only
          obtain ⟨t, hClean, hExact, hShrinks, hLe⟩ := h.clean now
          have hNew' : (⟨m % 4, file⟩ : Key) ∉ keys t.cache := fun hMem => by
            obtain ⟨f, hf⟩ := mem_keys.mp hMem
            exact hNew (mem_keys.mpr ⟨f, hShrinks.cache _ hf⟩)
          obtain ⟨answer, s', hLoop, hExact', hLe', hNone, hOk⟩ :=
            hExact.openLoop hNew' now errors (Nat.lt_succ_self _) 0
          rw [hClean, Option.bind_some, hLoop]
          refine ⟨answer, _, rfl, hExact', ?_, fun n hn => .inl (hOk n hn), ?_⟩
          · exact Nat.le_trans (Nat.le_trans hLe' (Nat.succ_le_succ hLe)) (Nat.le_max_right _ _)
          · intro errno hErrno
            subst hErrno
            refine ⟨State.newEntry now (.error errno), hExact'.lookup.mpr ?_, rfl, rfl⟩
            show _ ∈ add _ _ s'.cache
            rw [add_of_notMem _ hNone]
            exact List.mem_append_right _ List.mem_cons_self

end Steps

/-! ## Runs of the cache -/

theorem Exact.act {s : State} (h : Exact s) (hLe : s.opened.length ≤ maxCount + 1) {e : Event}
    (he : e.Asserted) :
    ∃ s', s.act e = some s' ∧ Exact s' ∧ s'.opened.length ≤ maxCount + 1 := by
  cases e with
  | openFile file m now errors =>
      obtain ⟨answer, s', hOpen, hExact, hMax, -⟩ := h.openFile file he now errors
      refine ⟨s', ?_, hExact, Nat.le_trans hMax (Nat.max_le.mpr ⟨hLe, Nat.le_refl _⟩)⟩
      show (s.openFile file m now errors).map Prod.snd = some s'
      rw [hOpen]
      rfl
  | close file =>
      obtain ⟨s', hDrop, hExact, hShrinks, -⟩ :=
        h.dropAll (fun e he => (List.mem_filter.mp he).1) (keys_filter_nodup h)
      exact ⟨s', hDrop, hExact, Nat.le_trans hShrinks.opened hLe⟩
  | clean now =>
      obtain ⟨s', hClean, hExact, hShrinks, -⟩ := h.clean now
      exact ⟨s', hClean, hExact, Nat.le_trans hShrinks.opened hLe⟩
  | closeAll =>
      obtain ⟨s', hDrop, hExact, hShrinks, -⟩ := h.dropAll (fun e he => he) h.names
      exact ⟨s', hDrop, hExact, Nat.le_trans hShrinks.opened hLe⟩
  | reorder cache =>
      refine ⟨_, rfl, ?_⟩
      split
      · next hPerm =>
        refine ⟨⟨?_, h.descriptors, h.others, fun n k => ?_⟩, hLe⟩
        · exact (hPerm.map Prod.fst).nodup_iff.mpr h.names
        · rw [show (n, k) ∈ s.opened ↔ _ from h.entries n k]
          exact exists_congr fun f => and_congr_left fun _ => hPerm.mem_iff.symm
      · exact ⟨h, hLe⟩
  | others descriptors =>
      refine ⟨_, rfl, ?_⟩
      split
      · next hFree => exact ⟨⟨h.names, h.descriptors, hFree, h.entries⟩, hLe⟩
      · exact ⟨h, hLe⟩

theorem exact_run {es : List Event} (h : ∀ e ∈ es, e.Asserted) : ∃ s,
    es.foldlM State.act .new = some s ∧ Exact s ∧ s.opened.length ≤ maxCount + 1 :=
  foldlM_total (I := fun s => Exact s ∧ s.opened.length ≤ maxCount + 1)
    (fun _ e he hs => hs.1.act hs.2 (h e he)) ⟨exact_new, Nat.zero_le _⟩

theorem Negative.openFile {s : State} {file : Bytes} {m errno : Nat} (hm : m % 4 ≠ 3)
    (h : Negative s ⟨m % 4, file⟩ errno) (now : Time) (errors : Nat → Option Nat) :
    s.openFile file m now errors = some (.error errno, s) := by
  obtain ⟨f, hLookup, hf, rfl⟩ := h
  unfold State.openFile
  dsimp only
  rw [if_neg hm, hLookup]
  dsimp only
  rw [hf]

theorem Negative.retry {s : State} {file : Bytes} {m errno : Nat} (hm : m % 4 ≠ 3)
    (h : Negative s ⟨m % 4, file⟩ errno) (hMany : errno = eMfile ∨ errno = eNfile) (now : Time)
    (errors : Nat → Nat → Option Nat) (peers : Nat) :
    s.retry file m now errors peers (.error errno) = some (0, .error errno, s) := by
  induction peers with
  | zero => rfl
  | succ peers ih =>
      unfold State.retry
      dsimp only
      rw [if_pos hMany, h.openFile hm, Option.bind_some]
      exact ih

end Lftp.Ports.FDCache
