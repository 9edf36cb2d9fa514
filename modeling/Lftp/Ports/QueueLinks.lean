import Lftp.Ports.QueueFeeder
import Lftp.Verified.Linked
import Lftp.Verified.Outcome
import Mathlib.Data.List.TakeWhile

/-!
# The links of the command queue

The jobs of a `QueueFeeder` in memory, each with its `next` and `prev`, and the functions that
take jobs out of the list and put them in. An address is a number, and a job that is deleted is
no longer in the heap; `Malloc` gives the addresses of new ones. Printing is left out.

* `unlinkJob_spec`, `insertJobs_spec`: the two changes to a list.
* `grabJob_spec`, `grabJobs_spec`: which jobs are grabbed, by number and by pattern.
-/

namespace Lftp.Ports.QueueLinks

open Lftp.Verified Lftp.Verified.Linked Lftp.Verified.Assoc
open Lftp.Ports.QueueFeeder (QueueJob)

inductive Fault
  | assertion
  /-- A null pointer, or a job that has been deleted. -/
  | pointer
  | outOfFuel
  deriving DecidableEq

/-- The jobs in memory, and a list of some of them. -/
structure JobList where
  heap : Heap QueueJob
  jobs : Option Nat
  lastjob : Option Nat

/-- The addresses of new objects. -/
structure Malloc where
  address : List Nat → Nat
  fresh : ∀ used, address used ∉ used

def deref (h : Heap QueueJob) (p : Option Nat) : Except Fault (Node QueueJob) :=
  match p.bind h.get with
  | some node => .ok node
  | none => .error .pointer

/-- `if(p) p->next = n` -/
def putNext (h : Heap QueueJob) (p n : Option Nat) : Except Fault (Heap QueueJob) :=
  match p with
  | none => .ok h
  | some a => (deref h (some a)).map fun _ => setNext h a n

/-- `if(p) p->prev = n` -/
def putPrev (h : Heap QueueJob) (p n : Option Nat) : Except Fault (Heap QueueJob) :=
  match p with
  | none => .ok h
  | some a => (deref h (some a)).map fun _ => setPrev h a n

/-- `unlink_job` -/
def unlinkJob (job : Nat) (q : JobList) : Except Fault JobList := do
  let j ← deref q.heap (some job)
  let jobs ← (if j.prev = none then (deref q.heap q.jobs).map Node.next else .ok q.jobs)
  let lastjob ← (if j.next = none then (deref q.heap q.lastjob).map Node.prev else .ok q.lastjob)
  let heap ← putNext q.heap j.prev j.next
  let j ← deref heap (some job)
  let heap ← putPrev heap j.next j.prev
  let heap ← putNext heap (some job) none
  let heap ← putPrev heap (some job) none
  .ok ⟨heap, jobs, lastjob⟩

/-! ## Loops

The first argument bounds the number of turns. -/

/-- The loop of `get_job`. -/
def nth : Nat → Heap QueueJob → Option Nat → Int → Except Fault (Option Nat)
  | _, _, none, _ => .ok none
  | 0, _, some _, _ => .error .outOfFuel
  | fuel + 1, h, some j, n =>
    if n = 0 then .ok (some j)
    else do
      let node ← deref h (some j)
      nth fuel h node.next (n - 1)

/-- The first job from `j` on with a property. -/
def findFrom (p : QueueJob → Bool) : Nat → Heap QueueJob → Option Nat → Except Fault (Option Nat)
  | _, _, none => .ok none
  | 0, _, some _ => .error .outOfFuel
  | fuel + 1, h, some j => do
    let node ← deref h (some j)
    if p node.val then .ok (some j) else findFrom p fuel h node.next

/-- The last job of the list that begins with `tail`. -/
def findTail : Nat → Heap QueueJob → Nat → Except Fault Nat
  | 0, _, _ => .error .outOfFuel
  | fuel + 1, h, tail => do
    let t ← deref h (some tail)
    match t.next with
    | none => .ok tail
    | some next => findTail fuel h next

/-- `FreeList` -/
def freeList : Nat → Heap QueueJob → Option Nat → Except Fault (Heap QueueJob)
  | _, h, none => .ok h
  | 0, _, some _ => .error .outOfFuel
  | fuel + 1, h, some j => do
    let node ← deref h (some j)
    freeList fuel (h.erase j) node.next

/-- The number of jobs in memory, which no list is longer than. -/
def size (h : Heap QueueJob) : Nat := h.ids.length

/-! ## Lists -/

/-- The pointers of the ends, in `insert_jobs`. -/
def attach (h : Heap QueueJob) (job tail : Nat) (lastjob : Option Nat) :
    Option Nat → Except Fault (Heap QueueJob)
  | none => do
    let h ← putPrev h (some job) lastjob
    putNext h (some tail) none
  | some before => do
    let h ← putNext h (some tail) (some before)
    let b ← deref h (some before)
    putPrev h (some job) b.prev

/-- `insert_jobs` -/
def insertJobs (job : Nat) (before : Option Nat) (q : JobList) : Except Fault JobList := do
  let j ← deref q.heap (some job)
  if j.prev ≠ none then .error .assertion
  else do
    let tail ← findTail (size q.heap) q.heap job
    let heap ← attach q.heap job tail q.lastjob before
    let j ← deref heap (some job)
    let heap ← putNext heap j.prev (some job)
    let t ← deref heap (some tail)
    let heap ← putPrev heap t.next (some tail)
    let t ← deref heap (some tail)
    let j ← deref heap (some job)
    .ok ⟨heap, if j.prev = none then some job else q.jobs,
      if t.next = none then some tail else q.lastjob⟩

/-- `get_job` -/
def getJob (n : Int) (q : JobList) : Except Fault (Option Nat) :=
  if n = -1 then .ok q.lastjob else nth (size q.heap) q.heap q.jobs n

/-- The job that jobs are put before; `-1` is the end. -/
def beforeJob (n : Int) (q : JobList) : Except Fault (Option Nat) :=
  if n ≠ -1 then getJob n q else .ok none

/-- `grab_job` by number. -/
def grabJob (n : Int) (q : JobList) : Except Fault (Option Nat × JobList) := do
  let j ← getJob n q
  match j with
  | none => .ok (none, q)
  | some job => (unlinkJob job q).map fun q => (some job, q)

/-- The rest of `DelJob`, with the jobs that have been grabbed. -/
def freeJobs (r : Option Nat × JobList) : Except Fault (Bool × JobList) :=
  match r.1 with
  | none => .ok (false, r.2)
  | some job => (freeList (size r.2.heap) r.2.heap (some job)).map fun heap =>
      (true, { r.2 with heap := heap })

/-- `DelJob` by number. -/
def delJob (from_ : Int) (q : JobList) : Except Fault (Bool × JobList) := do
  let r ← grabJob from_ q
  freeJobs r

/-- `MoveJob` by number. -/
def moveJob (from_ to_ : Int) (q : JobList) : Except Fault (Bool × JobList) :=
  if from_ = to_ then .ok (false, q)
  else do
    let before ← beforeJob to_ q
    let r ← grabJob from_ q
    match r.1 with
    | none => .ok (false, r.2)
    | some job =>
      if some job = before then .error .assertion
      else (insertJobs job before r.2).map fun q => (true, q)

section
variable (fnmatch : Bytes → Bytes → Bool)

/-- `get_next_match` -/
def getNextMatch (cmd : Bytes) (h : Heap QueueJob) (j : Option Nat) : Except Fault (Option Nat) :=
  findFrom (fun job => fnmatch cmd job.cmd) (size h) h j

/-- The loop of `grab_job` by pattern, with the list `head` to `tail` of the jobs it has found. -/
def grabTurns (cmd : Bytes) :
    Nat → Option Nat → Option Nat → Option Nat → JobList → Except Fault (Option Nat × JobList)
  | _, none, head, _, q => .ok (head, q)
  | 0, some _, _, _, _ => .error .outOfFuel
  | fuel + 1, some j, head, tail, q => do
    let found ← getNextMatch fnmatch cmd q.heap (some j)
    match found with
    | none => .ok (head, q)
    | some job => do
      let node ← deref q.heap (some job)
      let q ← unlinkJob job q
      let list ← insertJobs job none ⟨q.heap, head, tail⟩
      grabTurns cmd fuel node.next list.jobs list.lastjob { q with heap := list.heap }

/-- `grab_job` by pattern. -/
def grabJobs (cmd : Bytes) (q : JobList) : Except Fault (Option Nat × JobList) :=
  grabTurns fnmatch cmd (size q.heap) q.jobs none none q

/-- `DelJob` by pattern. -/
def delJobs (cmd : Bytes) (q : JobList) : Except Fault (Bool × JobList) := do
  let r ← grabJobs fnmatch cmd q
  freeJobs r

/-- `MoveJob` by pattern. -/
def moveJobs (cmd : Bytes) (to_ : Int) (q : JobList) : Except Fault (Bool × JobList) := do
  let before ← beforeJob to_ q
  -- the job to insert before must not be one that is moved
  let before ← findFrom (fun job => !fnmatch cmd job.cmd) (size q.heap) q.heap before
  let r ← grabJobs fnmatch cmd q
  match r.1 with
  | none => .ok (false, r.2)
  | some job => (insertJobs job before r.2).map fun q => (true, q)

end

/-- The job that `QueueCmd` makes; we never want a newline at the end. -/
def newJob (cmd : Bytes) (pwd lpwd : Option Bytes) : QueueJob :=
  ⟨if cmd.getLast? = some (ch '\n') then cmd.dropLast else cmd, pwd, lpwd⟩

/-- `QueueCmd` -/
def queueCmd (malloc : Malloc) (cmd : Bytes) (pwd lpwd : Option Bytes) (pos : Int) (q : JobList) :
    Except Fault JobList := do
  let job := malloc.address q.heap.ids
  let q : JobList := { q with heap := q.heap.insert job ⟨newJob cmd pwd lpwd, none, none⟩ }
  let before ← beforeJob pos q
  insertJobs job before q

/-! ## Writes -/

/-- A job with its address. -/
abbrev Entry := Nat × QueueJob

/-- Only the nodes at these addresses change. -/
structure Frame (as : List Nat) (h h' : Heap QueueJob) : Prop where
  ids : h'.ids = h.ids
  get : ∀ a ∉ as, h'.get a = h.get a

section
variable {h h' h'' : Heap QueueJob} {p n : Option Nat} {es xs ys : List Entry} {e : Entry}
  {as bs : List Nat} {q : JobList}

theorem Frame.refl (as : List Nat) (h : Heap QueueJob) : Frame as h h := ⟨rfl, fun _ _ => rfl⟩

theorem Frame.trans (hFirst : Frame as h h') (hThen : Frame as h' h'') : Frame as h h'' :=
  ⟨hThen.ids.trans hFirst.ids, fun a ha => (hThen.get a ha).trans (hFirst.get a ha)⟩

theorem Frame.mono (hFrame : Frame as h h') (hSub : as ⊆ bs) : Frame bs h h' :=
  ⟨hFrame.ids, fun a ha => hFrame.get a fun hMem => ha (hSub hMem)⟩

/-- A list elsewhere stays. -/
theorem Frame.chain (hFrame : Frame as h h') {m : Option Nat} (hChain : Chain h p es m)
    (hApart : ∀ a ∈ keys es, a ∉ as) : Chain h' p es m :=
  hChain.congr fun a ha => hFrame.get a (hApart a ha)

theorem frame_modify (h : Heap QueueJob) {a : Nat} (ha : a ∈ as) (f : Node QueueJob → Node QueueJob) :
    Frame as h (h.modify a f) := by
  refine ⟨Table.ids_modify h a f, fun b hb => ?_⟩
  rw [Table.get_modify, if_neg]
  rintro rfl
  exact hb ha

theorem deref_some {a : Nat} {node : Node QueueJob} (hGet : h.get a = some node) :
    deref h (some a) = .ok node := by
  rw [deref, Option.bind_some, hGet]

/-- The last job of a list gets another one after it. -/
theorem putNext_last {m : Option Nat} (hChain : Chain h p es m) (hNodup : (keys es).Nodup)
    (n : Option Nat) :
    ∃ h', putNext h (last none es) n = .ok h' ∧ Chain h' p es n ∧ Frame (keys es) h h' := by
  rcases List.eq_nil_or_concat es with rfl | ⟨es, e, rfl⟩
  · exact ⟨h, rfl, trivial, .refl _ _⟩
  · rw [List.concat_eq_append] at hChain hNodup ⊢
    have he : e.1 ∉ keys es := by
      intro hMem
      rw [keys_append, List.nodup_append] at hNodup
      exact hNodup.2.2 e.1 hMem e.1 (List.mem_singleton_self _) rfl
    refine ⟨setNext h e.1 n, ?_, hChain.setNext_last he n, frame_modify h ?_ _⟩
    · rw [last_concat, putNext, deref_some (chain_append.mp hChain).2.1]
      rfl
    · rw [keys_append]
      exact List.mem_append_right _ (List.mem_singleton_self _)

/-- The first job of a list gets another one before it. -/
theorem putPrev_first {m : Option Nat} (hChain : Chain h p es m) (hNodup : (keys es).Nodup)
    (n : Option Nat) :
    ∃ h', putPrev h (first es none) n = .ok h' ∧ Chain h' n es m ∧ Frame (keys es) h h' := by
  cases es with
  | nil => exact ⟨h, rfl, trivial, .refl _ _⟩
  | cons e es =>
      have he : e.1 ∉ keys es := (List.nodup_cons.mp hNodup).1
      refine ⟨setPrev h e.1 n, ?_, hChain.setPrev_first he n, frame_modify h ?_ _⟩
      · rw [first_cons, putPrev, deref_some hChain.1]
        rfl
      · exact List.mem_cons_self

/-! ## Changes to a list -/

/-- The entries of a list in order: `next` and `prev` are inverse to each other, and the two
pointers are its ends. -/
structure Lists (q : JobList) (es : List Entry) : Prop where
  chain : Chain q.heap none es none
  jobs : q.jobs = first es none
  lastjob : q.lastjob = last none es

theorem Lists.of_frame (hLists : Lists q es) (hFrame : Frame as q.heap h)
    (hApart : ∀ a ∈ keys es, a ∉ as) : Lists { q with heap := h } es :=
  ⟨hFrame.chain hLists.chain hApart, hLists.jobs, hLists.lastjob⟩

/-- Addresses of three parts of a list. -/
structure Apart (xs : List Entry) (a : Nat) (ys : List Entry) : Prop where
  left : (keys xs).Nodup
  right : (keys ys).Nodup
  left_ne : a ∉ keys xs
  right_ne : a ∉ keys ys
  disjoint : ∀ b ∈ keys xs, b ∉ keys ys

theorem apart_of_nodup (hNodup : (keys (xs ++ e :: ys)).Nodup) : Apart xs e.1 ys := by
  rw [keys_append, keys_cons, List.nodup_append, List.nodup_cons] at hNodup
  obtain ⟨hLeft, ⟨hNe, hRight⟩, hDisjoint⟩ := hNodup
  exact ⟨hLeft, hRight, fun hMem => hDisjoint e.1 hMem e.1 List.mem_cons_self rfl, hNe,
    fun b hb hMem => hDisjoint b hb b (List.mem_cons_of_mem _ hMem) rfl⟩

theorem jobs_unlinked (hLists : Lists q (xs ++ e :: ys)) :
    (if last none xs = none then (deref q.heap q.jobs).map Node.next else .ok q.jobs)
      = .ok (first (xs ++ ys) none) := by
  rw [hLists.jobs, first_append, first_append]
  by_cases hNil : xs = []
  · subst hNil
    rw [if_pos (last_nil none), first_nil, first_nil, first_cons, deref_some hLists.chain.get]
    rfl
  · rw [if_neg (fun hNone => hNil (last_eq_none.mp hNone)), first_of_ne hNil]

theorem lastjob_unlinked (hLists : Lists q (xs ++ e :: ys)) :
    (if first ys none = none then (deref q.heap q.lastjob).map Node.prev else .ok q.lastjob)
      = .ok (last none (xs ++ ys)) := by
  rw [hLists.lastjob, last_append, last_append, last_cons]
  by_cases hNil : ys = []
  · subst hNil
    rw [if_pos (first_nil none), last_nil, last_nil, deref_some hLists.chain.get]
    rfl
  · rw [if_neg (fun hNone => hNil (first_eq_none.mp hNone)), last_of_ne hNil]

/-- A job is taken out of a list and stands alone. -/
theorem unlinkJob_spec (hLists : Lists q (xs ++ e :: ys)) (hNodup : (keys (xs ++ e :: ys)).Nodup) :
    ∃ q', unlinkJob e.1 q = .ok q' ∧ Lists q' (xs ++ ys) ∧ Chain q'.heap none [e] none
      ∧ Frame (keys (xs ++ e :: ys)) q.heap q'.heap := by
  obtain ⟨hLeft, hRight, hLeftNe, hRightNe, hDisjoint⟩ := apart_of_nodup hNodup
  have hGet := hLists.chain.get
  obtain ⟨hxs, hys⟩ : Chain q.heap none xs (some e.1) ∧ Chain q.heap (some e.1) ys none := by
    have hChain := chain_append.mp hLists.chain
    exact ⟨hChain.1, hChain.2.2⟩
  have he : Chain q.heap (last none xs) [e] (first ys none) := chain_singleton.mpr hGet
  have hSingle : ∀ a ∈ keys [e], a = e.1 := fun a ha => List.mem_singleton.mp ha
  -- one write after the other
  obtain ⟨h₁, hPut₁, hxs₁, hFrame₁⟩ := putNext_last hxs hLeft (first ys none)
  have he₁ := hFrame₁.chain he fun a ha => hSingle a ha ▸ hLeftNe
  have hys₁ := hFrame₁.chain hys fun a ha hMem => hDisjoint a hMem ha
  obtain ⟨h₂, hPut₂, hys₂, hFrame₂⟩ := putPrev_first hys₁ hRight (last none xs)
  have he₂ := hFrame₂.chain he₁ fun a ha => hSingle a ha ▸ hRightNe
  have hxs₂ := hFrame₂.chain hxs₁ hDisjoint
  obtain ⟨h₃, hPut₃, he₃, hFrame₃⟩ := putNext_last he₂ (List.nodup_singleton e.1) none
  have hxs₃ := hFrame₃.chain hxs₂ fun a ha hMem => hLeftNe (hSingle a hMem ▸ ha)
  have hys₃ := hFrame₃.chain hys₂ fun a ha hMem => hRightNe (hSingle a hMem ▸ ha)
  obtain ⟨h₄, hPut₄, he₄, hFrame₄⟩ := putPrev_first he₃ (List.nodup_singleton e.1) none
  have hxs₄ := hFrame₄.chain hxs₃ fun a ha hMem => hLeftNe (hSingle a hMem ▸ ha)
  have hys₄ := hFrame₄.chain hys₃ fun a ha hMem => hRightNe (hSingle a hMem ▸ ha)
  have hGet₁ := chain_singleton.mp he₁
  refine ⟨⟨h₄, first (xs ++ ys) none, last none (xs ++ ys)⟩, ?_, ⟨?_, rfl, rfl⟩, he₄, ?_⟩
  · unfold unlinkJob
    rw [deref_some hGet, ok_bind, jobs_unlinked hLists, ok_bind, lastjob_unlinked hLists, ok_bind,
      hPut₁, ok_bind, deref_some hGet₁, ok_bind, hPut₂, ok_bind]
    rw [show last none [e] = some e.1 from rfl] at hPut₃
    rw [hPut₃, ok_bind]
    rw [first_cons] at hPut₄
    rw [hPut₄, ok_bind]
  · exact chain_append.mpr ⟨hxs₄, hys₄⟩
  · have hSub : keys [e] ⊆ keys (xs ++ e :: ys) := by
      intro a ha
      rw [hSingle a ha, keys_append]
      exact List.mem_append_right _ List.mem_cons_self
    have hSub' : keys xs ⊆ keys (xs ++ e :: ys) := by
      rw [keys_append]
      exact List.subset_append_left _ _
    have hSub'' : keys ys ⊆ keys (xs ++ e :: ys) := by
      rw [keys_append, keys_cons]
      exact fun a ha => List.mem_append_right _ (List.mem_cons_of_mem _ ha)
    exact (((hFrame₁.mono hSub').trans (hFrame₂.mono hSub'')).trans (hFrame₃.mono hSub)).trans
      (hFrame₄.mono hSub)

/-- The number of jobs in memory bounds the loops over a list. -/
theorem length_le_size {m : Option Nat} (hChain : Chain h p es m) (hNodup : (keys es).Nodup) :
    es.length ≤ size h := by
  have hSub : keys es ⊆ h.ids := fun a ha => Table.mem_ids.mpr (hChain.get_of_mem ha)
  have hLe := (hNodup.subperm hSub).length_le
  rwa [keys, List.length_map] at hLe

theorem findTail_spec {t : Entry} {init : List Entry} {fuel : Nat}
    (hChain : Chain h p (e :: es) none) (hSplit : e :: es = init ++ [t]) (hFuel : es.length < fuel) :
    findTail fuel h e.1 = .ok t.1 := by
  induction es generalizing e p init fuel with
  | nil =>
      obtain ⟨fuel, rfl⟩ := Nat.exists_eq_add_of_lt hFuel
      have ht : some e = some t := by
        have hLast := congrArg List.getLast? hSplit
        rwa [List.getLast?_concat] at hLast
      rw [findTail, deref_some hChain.1, ok_bind, Option.some.inj ht]
      rfl
  | cons e' es ih =>
      obtain ⟨fuel, rfl⟩ := Nat.exists_eq_add_of_lt hFuel
      rw [findTail, deref_some hChain.1, ok_bind]
      cases init with
      | nil => cases hSplit
      | cons x init =>
          apply ih hChain.2 (List.cons.inj hSplit).2
          rw [List.length_cons]
          omega

/-- The two ends of the jobs that are put in get their neighbours. -/
theorem attach_spec {t : Entry} {init : List Entry} (hLists : Lists q (xs ++ ys))
    (hChain : Chain q.heap none (e :: es) none) (hSplit : e :: es = init ++ [t])
    (hNodup : (keys (e :: es)).Nodup) (hApart : ∀ a ∈ keys ys, a ∉ keys (e :: es)) :
    ∃ h', attach q.heap e.1 t.1 q.lastjob (first ys none) = .ok h'
      ∧ Chain h' (last none xs) (e :: es) (first ys none) ∧ Frame (keys (e :: es)) q.heap h' := by
  have hLast : last none (e :: es) = some t.1 := by rw [hSplit, last_concat]
  cases ys with
  | nil =>
      obtain ⟨h₁, hPut₁, hChain₁, hFrame₁⟩ := putPrev_first hChain hNodup (last none xs)
      obtain ⟨h₂, hPut₂, hChain₂, hFrame₂⟩ := putNext_last hChain₁ hNodup none
      refine ⟨h₂, ?_, hChain₂, hFrame₁.trans hFrame₂⟩
      rw [hLast] at hPut₂
      rw [hLists.lastjob, List.append_nil]
      show putPrev q.heap (first (e :: es) none) (last none xs) >>= _ = _
      rw [hPut₁, ok_bind, hPut₂]
  | cons y ys =>
      obtain ⟨h₁, hPut₁, hChain₁, hFrame₁⟩ := putNext_last hChain hNodup (some y.1)
      have hGet : h₁.get y.1 = some ⟨y.2, first ys none, last none xs⟩ := by
        rw [hFrame₁.get _ (hApart _ List.mem_cons_self)]
        exact hLists.chain.get
      obtain ⟨h₂, hPut₂, hChain₂, hFrame₂⟩ := putPrev_first hChain₁ hNodup (last none xs)
      refine ⟨h₂, ?_, hChain₂, hFrame₁.trans hFrame₂⟩
      rw [hLast] at hPut₁
      show putNext q.heap (some t.1) (some y.1) >>= _ = _
      rw [hPut₁, ok_bind, deref_some hGet, ok_bind]
      exact hPut₂

/-- Jobs that stand alone are put into a list before `before`, or at its end. -/
theorem insertJobs_spec (hLists : Lists q (xs ++ ys)) (hChain : Chain q.heap none (e :: es) none)
    (hNodup : (keys (xs ++ (e :: es) ++ ys)).Nodup) :
    ∃ q', insertJobs e.1 (first ys none) q = .ok q' ∧ Lists q' (xs ++ (e :: es) ++ ys)
      ∧ Frame (keys (xs ++ (e :: es) ++ ys)) q.heap q'.heap := by
  obtain ⟨init, t, hSplit⟩ : ∃ init t, e :: es = init ++ [t] := by
    rcases List.eq_nil_or_concat (e :: es) with hNil | ⟨init, t, hSplit⟩
    · cases hNil
    · exact ⟨init, t, by rw [hSplit, List.concat_eq_append]⟩
  rw [keys_append, keys_append, List.nodup_append, List.nodup_append] at hNodup
  obtain ⟨⟨hLeft, hJobs, hLeftJobs⟩, hRight, hOther⟩ := hNodup
  have hJobsApart : ∀ a ∈ keys (e :: es), a ∉ keys xs := fun a ha hMem => hLeftJobs a hMem a ha rfl
  have hRightApart : ∀ a ∈ keys ys, a ∉ keys xs ++ keys (e :: es) := fun a ha hMem =>
    hOther a hMem a ha rfl
  have hys : ∀ a ∈ keys ys, a ∉ keys (e :: es) := fun a ha hMem =>
    hRightApart a ha (List.mem_append_right _ hMem)
  have hys' : ∀ a ∈ keys ys, a ∉ keys xs := fun a ha hMem =>
    hRightApart a ha (List.mem_append_left _ hMem)
  have hParts := chain_append.mp hLists.chain
  have hTail : findTail (size q.heap) q.heap e.1 = .ok t.1 :=
    findTail_spec hChain hSplit (length_le_size hChain hJobs)
  obtain ⟨h₁, hAttach, hJobs₁, hFrame₁⟩ := attach_spec hLists hChain hSplit hJobs hys
  have hxs₁ := hFrame₁.chain hParts.1 fun a ha hMem => hJobsApart a hMem ha
  have hys₁ := hFrame₁.chain hParts.2 hys
  obtain ⟨h₂, hPut₂, hxs₂, hFrame₂⟩ := putNext_last hxs₁ hLeft (some e.1)
  have hJobs₂ := hFrame₂.chain hJobs₁ hJobsApart
  have hys₂ := hFrame₂.chain hys₁ hys'
  obtain ⟨h₃, hPut₃, hys₃, hFrame₃⟩ := putPrev_first hys₂ hRight (some t.1)
  have hJobs₃ := hFrame₃.chain hJobs₂ fun a ha hMem => hys a hMem ha
  have hxs₃ := hFrame₃.chain hxs₂ fun a ha hMem => hys' a hMem ha
  have hLast : last (last none xs) (e :: es) = some t.1 := by rw [hSplit, last_concat]
  refine ⟨⟨h₃, first (xs ++ (e :: es) ++ ys) none, last none (xs ++ (e :: es) ++ ys)⟩, ?_,
    ⟨?_, rfl, rfl⟩, ?_⟩
  · have hGet₂ : h₂.get t.1 = some ⟨t.2, first ys none, last (last none xs) init⟩ := by
      rw [hSplit] at hJobs₂
      exact hJobs₂.get
    have hGet₃ : h₃.get t.1 = some ⟨t.2, first ys none, last (last none xs) init⟩ := by
      rw [hSplit] at hJobs₃
      exact hJobs₃.get
    unfold insertJobs
    rw [deref_some hChain.1, ok_bind, if_neg (not_not.mpr rfl), hTail, ok_bind, hAttach, ok_bind,
      deref_some hJobs₁.1, ok_bind, hPut₂, ok_bind, deref_some hGet₂, ok_bind, hPut₃, ok_bind,
      deref_some hGet₃, ok_bind, deref_some hJobs₃.1, ok_bind, hLists.jobs, hLists.lastjob]
    have hHead : (if last none xs = none then some e.1 else first (xs ++ ys) none)
        = first (xs ++ (e :: es) ++ ys) none := by
      by_cases hNil : xs = []
      · subst hNil
        exact if_pos rfl
      · rw [if_neg (fun hNone => hNil (last_eq_none.mp hNone)), first_append, first_append,
          first_append, first_of_ne hNil]
    have hEnd : (if first ys none = none then some t.1 else last none (xs ++ ys))
        = last none (xs ++ (e :: es) ++ ys) := by
      rw [last_append _ _ ys, last_append _ _ ys, last_append, hLast]
      by_cases hNil : ys = []
      · subst hNil
        exact if_pos rfl
      · rw [if_neg (fun hNone => hNil (first_eq_none.mp hNone)), last_of_ne hNil]
    rw [hHead, hEnd]
  · rw [List.append_assoc, chain_append, chain_append, hLast]
    exact ⟨hxs₃, hJobs₃, hys₃⟩
  · have hAll := (hFrame₁.mono (List.subset_append_right (keys xs) _)).mono
      (List.subset_append_left _ (keys ys))
    have hLeftPart := (hFrame₂.mono (List.subset_append_left _ (keys (e :: es)))).mono
      (List.subset_append_left _ (keys ys))
    rw [keys_append, keys_append]
    exact (hAll.trans hLeftPart).trans (hFrame₃.mono (List.subset_append_right _ _))

/-! ## Jobs by number and by pattern -/

/-- The job with a number; `-1` is the last one. -/
def picked (n : Int) (es : List Entry) : Option Entry :=
  if n = -1 then es.getLast? else if 0 ≤ n then es[n.toNat]? else none

/-- The place before which jobs are put; the end for numbers that stand for none. -/
def place (n : Int) (es : List Entry) : Nat := if 0 ≤ n then n.toNat else es.length

theorem nth_spec {fuel : Nat} (hChain : Chain h p es none) (hFuel : es.length ≤ fuel) (n : Int) :
    nth fuel h (first es none) n = .ok (if 0 ≤ n then first (es.drop n.toNat) none else none) := by
  induction es generalizing p fuel n with
  | nil =>
      have hNone : nth fuel h none n = .ok none := by unfold nth; rfl
      rw [first_nil, hNone, List.drop_nil, first_nil, ite_self]
  | cons e es ih =>
      obtain ⟨fuel, rfl⟩ := Nat.exists_eq_add_of_lt hFuel
      rw [first_cons, nth]
      by_cases hZero : n = 0
      · subst hZero
        rfl
      · rw [if_neg hZero, deref_some hChain.1, ok_bind, ih hChain.2 (by omega)]
        by_cases hn : 0 ≤ n
        · obtain ⟨k, rfl⟩ := Int.eq_ofNat_of_zero_le hn
          obtain ⟨k, rfl⟩ := Nat.exists_eq_succ_of_ne_zero (by omega : k ≠ 0)
          rw [if_pos (by omega), if_pos (by omega)]
          congr 2
          show es.drop (Int.toNat _) = es.drop k
          congr 1
          omega
        · rw [if_neg (by omega), if_neg hn]

theorem getJob_spec (hLists : Lists q es) (hNodup : (keys es).Nodup) (n : Int) :
    getJob n q = .ok ((picked n es).map Prod.fst) := by
  unfold getJob picked
  by_cases hn : n = -1
  · rw [if_pos hn, if_pos hn, hLists.lastjob]
    unfold last
    rw [Option.or_none]
  · rw [if_neg hn, if_neg hn, hLists.jobs, nth_spec hLists.chain (length_le_size hLists.chain hNodup)]
    split
    · unfold first
      rw [Option.or_none, List.head?_drop]
    · rfl

theorem beforeJob_spec (hLists : Lists q es) (hNodup : (keys es).Nodup) (n : Int) :
    beforeJob n q = .ok (first (es.drop (place n es)) none) := by
  unfold beforeJob
  by_cases hn : n = -1
  · subst hn
    rw [if_neg (not_not.mpr rfl), place, if_neg (by decide), List.drop_length, first_nil]
  · rw [if_pos hn, getJob_spec hLists hNodup, picked, if_neg hn, place]
    split
    · unfold first
      rw [Option.or_none, List.head?_drop]
    · rw [List.drop_length]
      rfl

theorem findFrom_spec {fuel : Nat} {found : QueueJob → Bool} (hChain : Chain h p es none)
    (hFuel : es.length ≤ fuel) : findFrom found fuel h (first es none)
      = .ok (first (es.dropWhile fun e => !found e.2) none) := by
  induction es generalizing p fuel with
  | nil => unfold findFrom; rfl
  | cons e es ih =>
      obtain ⟨fuel, rfl⟩ := Nat.exists_eq_add_of_lt hFuel
      rw [first_cons, findFrom, deref_some hChain.1, ok_bind, List.dropWhile_cons]
      cases hFound : found e.2
      · exact ih hChain.2 (by omega)
      · rfl

theorem freeList_spec {fuel : Nat} (hChain : Chain h p es none) (hNodup : (keys es).Nodup)
    (hFuel : es.length ≤ fuel) : ∃ h', freeList fuel h (first es none) = .ok h'
      ∧ ∀ a, h'.get a = if a ∈ keys es then none else h.get a := by
  induction es generalizing h p fuel with
  | nil =>
      refine ⟨h, by unfold freeList; rfl, fun a => ?_⟩
      rw [keys_nil, if_neg List.not_mem_nil]
  | cons e es ih =>
      obtain ⟨fuel, rfl⟩ := Nat.exists_eq_add_of_lt hFuel
      rw [keys_cons, List.nodup_cons] at hNodup
      have hRest : Chain (h.erase e.1) (some e.1) es none := by
        apply hChain.2.congr
        intro a ha
        rw [Table.get_erase, if_neg]
        rintro rfl
        exact hNodup.1 ha
      obtain ⟨h', hFree, hGet⟩ := ih hRest hNodup.2 (by omega : es.length ≤ es.length + fuel)
      refine ⟨h', ?_, fun a => ?_⟩
      · rw [first_cons, freeList, deref_some hChain.1, ok_bind]
        exact hFree
      · rw [hGet, Table.get_erase, keys_cons]
        by_cases ha : a = e.1
        · rw [if_pos ha, ite_self, if_pos (ha ▸ List.mem_cons_self)]
        · simp [ha]

/-! ## Grabbing -/

/-- The selected jobs are taken out of the list and stand alone in their order. -/
structure Grabs (q : JobList) (es : List Entry) (sel : Entry → Bool) (r : Option Nat × JobList) :
    Prop where
  job : r.1 = first (es.filter sel) none
  lists : Lists r.2 (es.filter fun e => !sel e)
  chain : Chain r.2.heap none (es.filter sel) none
  frame : Frame (keys es) q.heap r.2.heap

theorem nodup_entries (hNodup : (keys es).Nodup) : es.Nodup := hNodup.of_map Prod.fst

/-- Among different entries one is selected by itself. -/
theorem filter_entry (hNodup : (keys (xs ++ e :: ys)).Nodup) :
    ((xs ++ e :: ys).filter fun e' => decide (some e = some e')) = [e]
      ∧ ((xs ++ e :: ys).filter fun e' => !decide (some e = some e')) = xs ++ ys := by
  have hEntries := nodup_entries hNodup
  rw [List.nodup_append, List.nodup_cons] at hEntries
  obtain ⟨-, ⟨hRight, -⟩, hLeft⟩ := hEntries
  have hLeftNe : ∀ x ∈ xs, e ≠ x := fun x hx hEq => hLeft x hx e List.mem_cons_self hEq.symm
  have hRightNe : ∀ y ∈ ys, e ≠ y := fun y hy hEq => hRight (hEq ▸ hy)
  simp only [Option.some.injEq, List.filter_append, List.filter_cons]
  constructor
  · rw [List.filter_eq_nil_iff.mpr (by simpa using hLeftNe),
      List.filter_eq_nil_iff.mpr (by simpa using hRightNe)]
    simp
  · rw [List.filter_eq_self.mpr (by simpa using hLeftNe),
      List.filter_eq_self.mpr (by simpa using hRightNe)]
    simp

theorem picked_mem {k : Int} (hPicked : picked k es = some e) : e ∈ es := by
  unfold picked at hPicked
  split at hPicked
  · exact List.mem_of_getLast? hPicked
  split at hPicked
  · exact List.mem_of_getElem? hPicked
  · cases hPicked

theorem grabJob_spec (hLists : Lists q es) (hNodup : (keys es).Nodup) (n : Int) :
    ∃ r, grabJob n q = .ok r ∧ Grabs q es (fun e => decide (picked n es = some e)) r := by
  unfold grabJob
  rw [getJob_spec hLists hNodup, ok_bind]
  cases hPicked : picked n es with
  | none =>
      have hNone : ∀ e : Entry, decide (none = some e) = false := fun e => decide_eq_false nofun
      refine ⟨(none, q), rfl, ?_⟩
      simp only [hNone]
      constructor
      · rw [List.filter_false]
        rfl
      · rw [show (fun _ : Entry => !false) = fun _ => true from rfl, List.filter_true]
        exact hLists
      · rw [List.filter_false]
        trivial
      · exact .refl _ _
  | some e =>
      obtain ⟨xs, ys, rfl⟩ := List.append_of_mem (picked_mem hPicked)
      obtain ⟨q', hUnlink, hLists', hChain, hFrame⟩ := unlinkJob_spec hLists hNodup
      obtain ⟨hSelected, hKept⟩ := filter_entry hNodup
      refine ⟨(some e.1, q'), ?_, ?_⟩
      · show (unlinkJob e.1 q).map _ = _
        rw [hUnlink]
        rfl
      · constructor
        · rw [hSelected]
          rfl
        · rw [hKept]
          exact hLists'
        · rw [hSelected]
          exact hChain
        · exact hFrame

variable {fnmatch : Bytes → Bytes → Bool} {cmd : Bytes}

/-- The first match and what stands before it. -/
theorem exists_match (m : Entry → Bool) (es : List Entry) :
    (es.filter m = [] ∧ es.dropWhile (fun e => !m e) = []) ∨
      ∃ xs e ys, es = xs ++ e :: ys ∧ es.dropWhile (fun e => !m e) = e :: ys ∧ m e = true
        ∧ xs.filter m = [] := by
  have hSplit := List.takeWhile_append_dropWhile (p := fun e => !m e) (l := es)
  have hTake : (es.takeWhile fun e => !m e).filter m = [] := by
    rw [List.filter_eq_nil_iff]
    intro e he
    have hNot := List.mem_takeWhile_imp he
    simpa using hNot
  cases hDrop : es.dropWhile fun e => !m e with
  | nil =>
      rw [hDrop, List.append_nil] at hSplit
      rw [hSplit] at hTake
      exact .inl ⟨hTake, rfl⟩
  | cons e ys =>
      rw [hDrop] at hSplit
      have hMatch := List.head_dropWhile_not (fun e => !m e) (l := es) (by rw [hDrop]; nofun)
      simp only [hDrop, List.head_cons, Bool.not_eq_false'] at hMatch
      exact .inr ⟨_, e, ys, hSplit.symm, rfl, hMatch, hTake⟩

theorem disjoint_of_nodup (hNodup : (keys (xs ++ ys)).Nodup) : ∀ a ∈ keys ys, a ∉ keys xs := by
  rw [keys_append, List.nodup_append] at hNodup
  exact fun a ha hMem => hNodup.2.2 a hMem a ha rfl

/-- A job goes from the one list to the end of the other. -/
theorem grab_one {head tail : Option Nat} {found : List Entry} (hLists : Lists q (xs ++ e :: ys))
    (hFound : Lists ⟨q.heap, head, tail⟩ found) (hNodup : (keys (xs ++ e :: ys ++ found)).Nodup) :
    ∃ q' list, unlinkJob e.1 q = .ok q' ∧ insertJobs e.1 none ⟨q'.heap, head, tail⟩ = .ok list
      ∧ Lists { q' with heap := list.heap } (xs ++ ys) ∧ Lists list (found ++ [e])
      ∧ Frame (keys (xs ++ e :: ys ++ found)) q.heap list.heap := by
  have hApart := disjoint_of_nodup hNodup
  have hLeft : (keys (xs ++ e :: ys)).Nodup := by
    rw [keys_append] at hNodup
    exact (List.nodup_append.mp hNodup).1
  have hNe : ∀ a ∈ keys found, a ≠ e.1 := by
    rintro a ha rfl
    apply hApart _ ha
    rw [keys_append]
    exact List.mem_append_right _ List.mem_cons_self
  obtain ⟨q', hUnlink, hLists', hAlone, hFrame⟩ := unlinkJob_spec hLists hLeft
  have hFound' : Lists ⟨q'.heap, head, tail⟩ (found ++ []) := by
    rw [List.append_nil]
    exact hFound.of_frame hFrame hApart
  have hNodup' : (keys (found ++ [e] ++ [])).Nodup := by
    rw [List.append_nil, keys_append, List.nodup_append]
    rw [keys_append] at hNodup
    refine ⟨(List.nodup_append.mp hNodup).2.1, List.nodup_singleton e.1, fun a ha b hb => ?_⟩
    rw [List.mem_singleton.mp hb]
    exact hNe a ha
  obtain ⟨list, hInsert, hList, hFrame'⟩ := insertJobs_spec hFound' hAlone hNodup'
  rw [List.append_nil] at hList hFrame'
  have hMain : ∀ a ∈ keys (xs ++ ys), a ∉ keys (found ++ [e]) := by
    intro a ha hMem
    rw [keys_append] at ha hMem
    have hSame : a ∈ keys (xs ++ e :: ys) := by
      rw [keys_append, keys_cons]
      rcases List.mem_append.mp ha with ha | ha
      · exact List.mem_append_left _ ha
      · exact List.mem_append_right _ (List.mem_cons_of_mem _ ha)
    rcases List.mem_append.mp hMem with hMem | hMem
    · exact hApart a hMem hSame
    · have hParts := apart_of_nodup hLeft
      rw [List.mem_singleton.mp hMem] at ha
      rcases List.mem_append.mp ha with ha | ha
      · exact hParts.left_ne ha
      · exact hParts.right_ne ha
  refine ⟨q', list, hUnlink, hInsert, hLists'.of_frame hFrame' hMain, hList, ?_⟩
  rw [keys_append _ found]
  refine (hFrame.mono (List.subset_append_left _ _)).trans (hFrame'.mono fun a ha => ?_)
  rw [keys_append] at ha
  rcases List.mem_append.mp ha with ha | ha
  · exact List.mem_append_right _ ha
  · rw [List.mem_singleton.mp ha, keys_append]
    exact List.mem_append_left _ (List.mem_append_right _ List.mem_cons_self)

/-- The loop that grabs by pattern: `kept` has been passed, `rest` is still to come, and the list
from `head` to `tail` has what was found. -/
theorem grabTurns_spec {fuel : Nat} {head tail : Option Nat} {kept rest found : List Entry}
    (hLists : Lists q (kept ++ rest)) (hFound : Lists ⟨q.heap, head, tail⟩ found)
    (hNodup : (keys (kept ++ rest ++ found)).Nodup) (hFuel : rest.length ≤ fuel) :
    ∃ r, grabTurns fnmatch cmd fuel (first rest none) head tail q = .ok r
      ∧ r.1 = first (found ++ rest.filter fun e => fnmatch cmd e.2.cmd) none
      ∧ Lists r.2 (kept ++ rest.filter fun e => !fnmatch cmd e.2.cmd)
      ∧ Chain r.2.heap none (found ++ rest.filter fun e => fnmatch cmd e.2.cmd) none
      ∧ Frame (keys (kept ++ rest ++ found)) q.heap r.2.heap := by
  induction fuel generalizing q head tail kept rest found with
  | zero =>
      cases List.eq_nil_of_length_eq_zero (Nat.le_zero.mp hFuel)
      rw [List.filter_nil, List.filter_nil, List.append_nil]
      exact ⟨(head, q), by unfold grabTurns; rfl, hFound.jobs, hLists, hFound.chain, .refl _ _⟩
  | succ fuel ih =>
      cases hRest : rest with
      | nil =>
          rw [hRest] at hLists
          rw [List.filter_nil, List.filter_nil, List.append_nil]
          exact ⟨(head, q), by unfold grabTurns; rfl, hFound.jobs, hLists, hFound.chain,
            .refl _ _⟩
      | cons r₀ rest₀ =>
          rw [← hRest]
          have hChain := (chain_append.mp hLists.chain).2
          have hNext : getNextMatch fnmatch cmd q.heap (some r₀.1)
              = .ok (first (rest.dropWhile fun e => !fnmatch cmd e.2.cmd) none) := by
            have hLength := length_le_size hChain (by
              rw [keys_append, keys_append] at hNodup
              exact (List.nodup_append.mp (List.nodup_append.mp hNodup).1).2.1)
            have hFind : findFrom (fun job => fnmatch cmd job.cmd) (size q.heap) q.heap
                (first rest none) = _ := findFrom_spec hChain hLength
            rwa [hRest, first_cons, ← hRest] at hFind
          have hTurn : grabTurns fnmatch cmd (fuel + 1) (first rest none) head tail q
              = grabTurns fnmatch cmd (fuel + 1) (some r₀.1) head tail q := by rw [hRest, first_cons]
          rw [hTurn, grabTurns, hNext, ok_bind]
          rcases exists_match (fun e => fnmatch cmd e.2.cmd) rest with
            ⟨hNone, hDrop⟩ | ⟨xs, e, ys, hSplit, hDrop, hMatch, hNone⟩
          · have hAll : rest.filter (fun e => !fnmatch cmd e.2.cmd) = rest := by
              rw [List.filter_eq_nil_iff] at hNone
              rw [List.filter_eq_self]
              simpa using hNone
            rw [hDrop, hNone, hAll, List.append_nil]
            exact ⟨(head, q), rfl, hFound.jobs, hLists, hFound.chain, .refl _ _⟩
          · have hParts : kept ++ rest = kept ++ xs ++ e :: ys := by rw [hSplit, List.append_assoc]
            rw [hParts] at hLists hNodup ⊢
            obtain ⟨q', list, hUnlink, hInsert, hMain, hList, hFrame⟩ :=
              grab_one hLists hFound hNodup
            have hPerm : (kept ++ xs ++ ys ++ (found ++ [e])).Perm
                (kept ++ xs ++ e :: ys ++ found) := by
              rw [List.perm_iff_count]
              intro b
              simp only [List.count_append, List.count_cons, List.count_nil]
              omega
            have hNodup' : (keys (kept ++ xs ++ ys ++ (found ++ [e]))).Nodup :=
              (hPerm.map Prod.fst).nodup_iff.mpr hNodup
            have hLength : ys.length ≤ fuel := by
              rw [hSplit, List.length_append, List.length_cons] at hFuel
              omega
            obtain ⟨r, hTurns, hJob, hKept, hChain', hFrame'⟩ := ih hMain hList hNodup' hLength
            have hFilter : rest.filter (fun e => fnmatch cmd e.2.cmd)
                = e :: ys.filter fun e => fnmatch cmd e.2.cmd := by
              rw [hSplit, List.filter_append, hNone, List.filter_cons, if_pos hMatch,
                List.nil_append]
            have hFilter' : rest.filter (fun e => !fnmatch cmd e.2.cmd)
                = xs ++ ys.filter fun e => !fnmatch cmd e.2.cmd := by
              rw [List.filter_eq_nil_iff] at hNone
              rw [hSplit, List.filter_append, List.filter_eq_self.mpr (by simpa using hNone),
                List.filter_cons_of_neg (by simp [hMatch])]
            rw [hFilter, hFilter']
            rw [List.append_assoc, List.singleton_append] at hJob hChain'
            rw [List.append_assoc] at hKept
            refine ⟨r, ?_, hJob, hKept, hChain', hFrame.trans (hFrame'.mono ?_)⟩
            · rw [hDrop, first_cons]
              dsimp only
              rw [deref_some hLists.chain.get, ok_bind, hUnlink, ok_bind, hInsert, ok_bind]
              exact hTurns
            · exact (hPerm.map Prod.fst).subset

theorem grabJobs_spec (hLists : Lists q es) (hNodup : (keys es).Nodup) :
    ∃ r, grabJobs fnmatch cmd q = .ok r ∧ Grabs q es (fun e => fnmatch cmd e.2.cmd) r := by
  have hEmpty : Lists ⟨q.heap, none, none⟩ [] := ⟨trivial, rfl, rfl⟩
  have hAll : (keys ([] ++ es ++ [])).Nodup := by rwa [List.append_nil]
  have hMain : Lists q ([] ++ es) := hLists
  obtain ⟨r, hTurns, hJob, hKept, hChain, hFrame⟩ :=
    grabTurns_spec hMain hEmpty hAll (length_le_size hLists.chain hNodup)
  rw [List.append_nil] at hFrame
  refine ⟨r, ?_, hJob, hKept, hChain, hFrame⟩
  rw [grabJobs, hLists.jobs]
  exact hTurns

end

end Lftp.Ports.QueueLinks
