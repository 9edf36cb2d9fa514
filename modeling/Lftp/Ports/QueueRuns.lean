import Lftp.Ports.QueueLinks

/-!
# Runs of the command queue

What `QueueCmd`, `DelJob` and `MoveJob` do to a queue whose links are well formed. A call is
admitted if the command `queue` may make it: a move never starts at `-1`, the number that would
be the last job, and so the assertion of `MoveJob` holds.

* `exec_does`: what each call does.
* `run_exact`: the same for every sequence of calls.
* `queue_calls`: the command `queue` makes only admitted calls.
-/

namespace Lftp.Ports.QueueLinks

open Lftp.Verified Lftp.Verified.Linked Lftp.Verified.Assoc
open Lftp.Ports.QueueFeeder (QueueJob)

section
variable {h : Heap QueueJob} {es xs ys : List Entry} {e : Entry} {q : JobList}
  {fnmatch : Bytes → Bytes → Bool}

/-! ## Well formed queues -/

/-- The entries of a queue, and nothing else is in memory. -/
structure WellFormed (q : JobList) (es : List Entry) : Prop where
  lists : Lists q es
  nodup : (keys es).Nodup
  all : ∀ a ∈ q.heap.ids, a ∈ keys es

/-- The selected jobs go before the place `i`; all others stay in order. -/
def moved (sel : Entry → Bool) (i : Nat) (es : List Entry) : List Entry :=
  ((es.take i).filter fun e => !sel e) ++ es.filter sel ++ (es.drop i).filter fun e => !sel e

variable {sel : Entry → Bool} {r : Option Nat × JobList}

theorem kept_eq (sel : Entry → Bool) (i : Nat) (es : List Entry) : (es.filter fun e => !sel e)
    = ((es.take i).filter fun e => !sel e) ++ (es.drop i).filter fun e => !sel e := by
  rw [← List.filter_append, List.take_append_drop]

/-- A move is a permutation. -/
theorem moved_perm (sel : Entry → Bool) (i : Nat) (es : List Entry) : (moved sel i es).Perm es := by
  have hParts := List.filter_append_perm sel es
  rw [kept_eq sel i] at hParts
  refine List.Perm.trans ?_ hParts
  unfold moved
  rw [List.append_assoc]
  exact List.perm_append_comm_assoc _ _ _

theorem moved_of_none (hNone : es.filter sel = []) (i : Nat) : moved sel i es = es := by
  unfold moved
  rw [hNone, List.append_nil, ← kept_eq, List.filter_eq_self]
  rw [List.filter_eq_nil_iff] at hNone
  simpa using hNone

/-- Other nodes than those of the selected jobs. -/
theorem disjoint_filter (hNodup : (keys es).Nodup) (sel : Entry → Bool) :
    ∀ a ∈ keys (es.filter fun e => !sel e), a ∉ keys (es.filter sel) :=
  disjoint_of_nodup (((List.filter_append_perm sel es).map Prod.fst).nodup_iff.mpr hNodup)

theorem any_eq (sel : Entry → Bool) (es : List Entry) :
    es.any sel = (first (es.filter sel) none).isSome := by
  cases hFilter : es.filter sel with
  | nil =>
      rw [List.filter_eq_nil_iff] at hFilter
      rw [List.any_eq_false.mpr hFilter]
      rfl
  | cons e fs =>
      have hMem : e ∈ es.filter sel := hFilter ▸ List.mem_cons_self
      rw [List.mem_filter] at hMem
      exact List.any_eq_true.mpr ⟨e, hMem⟩

/-- The grabbed jobs are deleted. -/
theorem freeJobs_spec (h : WellFormed q es) (hGrabs : Grabs q es sel r) :
    ∃ q', freeJobs r = .ok (es.any sel, q') ∧ WellFormed q' (es.filter fun e => !sel e) := by
  have hKept : (keys (es.filter fun e => !sel e)).Nodup :=
    h.nodup.sublist (List.filter_sublist.map Prod.fst)
  have hSelected : (keys (es.filter sel)).Nodup := h.nodup.sublist (List.filter_sublist.map Prod.fst)
  have hMem : ∀ a ∈ keys es, a ∉ keys (es.filter sel) → a ∈ keys (es.filter fun e => !sel e) := by
    intro a ha hNot
    have hAll := ((List.filter_append_perm sel es).map Prod.fst).mem_iff.mpr ha
    rw [List.map_append] at hAll
    exact (List.mem_append.mp hAll).resolve_left hNot
  unfold freeJobs
  rw [any_eq, ← hGrabs.job]
  cases hJob : r.1 with
  | none =>
      have hNone : es.filter sel = [] := first_eq_none.mp (hGrabs.job.symm.trans hJob)
      refine ⟨r.2, rfl, hGrabs.lists, hKept, fun a ha => ?_⟩
      rw [hGrabs.frame.ids] at ha
      apply hMem a (h.all a ha)
      rw [hNone]
      exact List.not_mem_nil
  | some job =>
      obtain ⟨heap, hFree, hGet⟩ := freeList_spec hGrabs.chain hSelected
        (length_le_size hGrabs.chain hSelected)
      rw [← hGrabs.job, hJob] at hFree
      refine ⟨{ r.2 with heap := heap }, ?_, ⟨?_, hGrabs.lists.jobs, hGrabs.lists.lastjob⟩, hKept,
        fun a ha => ?_⟩
      · dsimp only
        rw [hFree]
        rfl
      · apply hGrabs.lists.chain.congr
        intro a ha
        rw [hGet, if_neg (disjoint_filter h.nodup sel a ha)]
      · obtain ⟨node, hNode⟩ := Table.mem_ids.mp ha
        rw [hGet] at hNode
        split at hNode
        · cases hNode
        · rename_i hNot
          have hOld := Table.mem_ids.mpr ⟨node, hNode⟩
          rw [hGrabs.frame.ids] at hOld
          exact hMem a (h.all a hOld) hNot

/-- The grabbed jobs are put in again. -/
theorem insert_grabbed (h : WellFormed q es) (hGrabs : Grabs q es sel r) {job : Nat}
    (hJob : r.1 = some job) (i : Nat) :
    ∃ q', insertJobs job (first ((es.drop i).filter fun e => !sel e) none) r.2 = .ok q'
      ∧ WellFormed q' (moved sel i es) := by
  cases hSelected : es.filter sel with
  | nil =>
      have hNone := hGrabs.job
      rw [hJob, hSelected] at hNone
      cases hNone
  | cons e fs =>
      have hSame : job = e.1 := by
        have hFirst := hGrabs.job
        rw [hJob, hSelected] at hFirst
        exact Option.some.inj hFirst
      have hLists := hGrabs.lists
      have hChain := hGrabs.chain
      rw [kept_eq sel i] at hLists
      rw [hSelected] at hChain
      have hPerm := (moved_perm sel i es).map Prod.fst
      have hNodup : (keys (moved sel i es)).Nodup := hPerm.nodup_iff.mpr h.nodup
      have hMoved : moved sel i es = ((es.take i).filter fun e => !sel e) ++ (e :: fs)
          ++ (es.drop i).filter fun e => !sel e := by rw [moved, hSelected]
      rw [hMoved] at hNodup hPerm ⊢
      obtain ⟨q', hInsert, hLists', hFrame⟩ := insertJobs_spec hLists hChain hNodup
      rw [hSame]
      refine ⟨q', hInsert, hLists', hNodup, fun a ha => ?_⟩
      rw [hFrame.ids, hGrabs.frame.ids] at ha
      exact hPerm.mem_iff.mpr (h.all a ha)

/-- The job before which the one with another number is put stays in the list. -/
theorem first_kept {n k : Int} (hNodup : (keys es).Nodup) (hn : n ≠ -1) (hNe : n ≠ k) :
    first (es.drop (place k es)) none
      = first ((es.drop (place k es)).filter fun e => !decide (picked n es = some e)) none := by
  cases hDrop : es.drop (place k es) with
  | nil => rfl
  | cons e fs =>
      rw [List.filter_cons, if_pos]
      · rfl
      · rw [Bool.not_eq_true', decide_eq_false_iff_not]
        intro hPicked
        have hAt : es[place k es]? = some e := by
          rw [← List.head?_drop, hDrop]
          rfl
        have hLess := (List.getElem?_eq_some_iff.mp hAt).1
        rw [picked, if_neg hn] at hPicked
        split at hPicked
        · have hSame := (List.getElem?_inj hLess (nodup_entries hNodup)).mp (hAt.trans hPicked.symm)
          unfold place at hSame hLess
          split at hSame
          · omega
          · rename_i hk
            rw [if_neg hk] at hLess
            omega
        · cases hPicked

theorem grabbed_none (h : WellFormed q es) (hGrabs : Grabs q es sel r) (hJob : r.1 = none) (i : Nat) :
    WellFormed r.2 (moved sel i es) := by
  have hNone : es.filter sel = [] := first_eq_none.mp (hGrabs.job.symm.trans hJob)
  have hLists := hGrabs.lists
  rw [List.filter_eq_self.mpr] at hLists
  · rw [moved_of_none hNone]
    refine ⟨hLists, h.nodup, fun a ha => ?_⟩
    rw [hGrabs.frame.ids] at ha
    exact h.all a ha
  · rw [List.filter_eq_nil_iff] at hNone
    simpa using hNone

theorem moveJob_spec (h : WellFormed q es) {from_ : Int} (hFrom : from_ ≠ -1) (to_ : Int) :
    ∃ q', moveJob from_ to_ q
        = .ok (decide (from_ ≠ to_) && es.any fun e => decide (picked from_ es = some e), q')
      ∧ WellFormed q' (if from_ = to_ then es
        else moved (fun e => decide (picked from_ es = some e)) (place to_ es) es) := by
  unfold moveJob
  by_cases hSame : from_ = to_
  · rw [if_pos hSame, if_pos hSame, decide_eq_false (not_not.mpr hSame), Bool.false_and]
    exact ⟨q, rfl, h⟩
  · obtain ⟨r, hGrab, hGrabs⟩ := grabJob_spec h.lists h.nodup from_
    rw [if_neg hSame, if_neg hSame, decide_eq_true hSame, Bool.true_and,
      beforeJob_spec h.lists h.nodup, ok_bind, hGrab, ok_bind, any_eq, ← hGrabs.job]
    cases hJob : r.1 with
    | none => exact ⟨r.2, rfl, grabbed_none h hGrabs hJob _⟩
    | some job =>
        obtain ⟨q', hInsert, hWell⟩ := insert_grabbed h hGrabs hJob (place to_ es)
        rw [← first_kept h.nodup hFrom hSame] at hInsert
        have hNe : ¬ some job = first (es.drop (place to_ es)) none := by
          intro hEq
          rw [first_kept h.nodup hFrom hSame] at hEq
          have hKept := first_mem hEq.symm
          have hSelected := first_mem (hGrabs.job.symm.trans hJob)
          refine disjoint_filter h.nodup _ job ?_ hSelected
          rw [kept_eq _ (place to_ es), keys_append]
          exact List.mem_append_right _ hKept
        refine ⟨q', ?_, hWell⟩
        dsimp only
        rw [if_neg hNe, hInsert]
        rfl

theorem first_dropWhile (m : Entry → Bool) (es : List Entry) (n : Option Nat) :
    first (es.dropWhile m) n = first (es.filter fun e => !m e) n := by
  induction es with
  | nil => rfl
  | cons e es ih =>
      rw [List.dropWhile_cons, List.filter_cons]
      cases hMatch : m e
      · rfl
      · exact ih

theorem moveJobs_spec (h : WellFormed q es) (cmd : Bytes) (to_ : Int) :
    ∃ q', moveJobs fnmatch cmd to_ q = .ok (es.any fun e => fnmatch cmd e.2.cmd, q')
      ∧ WellFormed q' (moved (fun e => fnmatch cmd e.2.cmd) (place to_ es) es) := by
  obtain ⟨r, hGrab, hGrabs⟩ := grabJobs_spec h.lists h.nodup
  have hRest : Chain q.heap (last none (es.take (place to_ es))) (es.drop (place to_ es)) none := by
    have hChain := h.lists.chain
    rw [← List.take_append_drop (place to_ es) es] at hChain
    exact (chain_append.mp hChain).2
  have hFuel : (es.drop (place to_ es)).length ≤ size q.heap := by
    have hLe := length_le_size h.lists.chain h.nodup
    rw [List.length_drop]
    omega
  have hBefore : findFrom (fun job => !fnmatch cmd job.cmd) (size q.heap) q.heap
      (first (es.drop (place to_ es)) none) = _ := findFrom_spec hRest hFuel
  simp only [Bool.not_not] at hBefore
  rw [first_dropWhile] at hBefore
  unfold moveJobs
  rw [beforeJob_spec h.lists h.nodup, ok_bind, hBefore, ok_bind, hGrab, ok_bind, any_eq,
    ← hGrabs.job]
  cases hJob : r.1 with
  | none => exact ⟨r.2, rfl, grabbed_none h hGrabs hJob _⟩
  | some job =>
      obtain ⟨q', hInsert, hWell⟩ := insert_grabbed h hGrabs hJob (place to_ es)
      refine ⟨q', ?_, hWell⟩
      dsimp only
      rw [hInsert]
      rfl

theorem delJob_spec (h : WellFormed q es) (from_ : Int) :
    ∃ q', delJob from_ q = .ok (es.any fun e => decide (picked from_ es = some e), q')
      ∧ WellFormed q' (es.filter fun e => !decide (picked from_ es = some e)) := by
  obtain ⟨r, hGrab, hGrabs⟩ := grabJob_spec h.lists h.nodup from_
  unfold delJob
  rw [hGrab, ok_bind]
  exact freeJobs_spec h hGrabs

theorem delJobs_spec (h : WellFormed q es) (cmd : Bytes) :
    ∃ q', delJobs fnmatch cmd q = .ok (es.any fun e => fnmatch cmd e.2.cmd, q')
      ∧ WellFormed q' (es.filter fun e => !fnmatch cmd e.2.cmd) := by
  obtain ⟨r, hGrab, hGrabs⟩ := grabJobs_spec h.lists h.nodup
  unfold delJobs
  rw [hGrab, ok_bind]
  exact freeJobs_spec h hGrabs

theorem queueCmd_spec (malloc : Malloc) (h : WellFormed q es) (cmd : Bytes) (pwd lpwd : Option Bytes)
    (pos : Int) : ∃ q' a, queueCmd malloc cmd pwd lpwd pos q = .ok q' ∧ a ∉ keys es
      ∧ WellFormed q' (es.take (place pos es) ++ (a, newJob cmd pwd lpwd)
        :: es.drop (place pos es)) := by
  have hFresh : q.heap.get (malloc.address q.heap.ids) = none := by
    rw [Table.get_eq_none_iff]
    exact malloc.fresh q.heap.ids
  have hNew : malloc.address q.heap.ids ∉ keys es := by
    intro hMem
    obtain ⟨node, hNode⟩ := h.lists.chain.get_of_mem hMem
    rw [hFresh] at hNode
    cases hNode
  unfold queueCmd
  dsimp only
  generalize malloc.address q.heap.ids = a at hFresh hNew
  generalize newJob cmd pwd lpwd = job
  have hGet := Table.get_insert hFresh (⟨job, none, none⟩ : Node QueueJob)
  generalize q.heap.insert a ⟨job, none, none⟩ = heap at hGet
  have hLists : Lists { q with heap := heap } es := by
    refine ⟨h.lists.chain.congr fun b hb => ?_, h.lists.jobs, h.lists.lastjob⟩
    rw [hGet, if_neg]
    rintro rfl
    exact hNew hb
  have hAlone : Chain heap none [(a, job)] none := by rw [chain_singleton, hGet, if_pos rfl]
  have hSplit := List.take_append_drop (place pos es) es
  have hPerm : (es.take (place pos es) ++ [(a, job)] ++ es.drop (place pos es)).Perm
      ((a, job) :: es) := by
    conv_rhs => rw [← hSplit]
    rw [List.append_assoc]
    exact List.perm_middle
  have hKeys := hPerm.map Prod.fst
  have hNodup : (keys (es.take (place pos es) ++ [(a, job)] ++ es.drop (place pos es))).Nodup :=
    hKeys.nodup_iff.mpr (List.nodup_cons.mpr ⟨hNew, h.nodup⟩)
  have hParts : Lists { q with heap := heap } (es.take (place pos es) ++ es.drop (place pos es)) := by
    rw [hSplit]
    exact hLists
  obtain ⟨q', hInsert, hLists', hFrame⟩ := insertJobs_spec hParts hAlone hNodup
  refine ⟨q', a, ?_, hNew, ?_⟩
  · rw [beforeJob_spec hLists h.nodup, ok_bind]
    exact hInsert
  · rw [List.append_assoc, List.singleton_append] at hLists' hNodup hKeys
    refine ⟨hLists', hNodup, fun b hb => ?_⟩
    rw [hFrame.ids] at hb
    obtain ⟨node, hNode⟩ := Table.mem_ids.mp hb
    rw [hGet] at hNode
    apply hKeys.mem_iff.mpr
    by_cases hEq : b = a
    · rw [hEq]
      exact List.mem_cons_self
    · rw [if_neg hEq] at hNode
      exact List.mem_cons_of_mem _ (h.all b (Table.mem_ids.mpr ⟨node, hNode⟩))

end

/-! ## Calls -/

/-- The calls to change a queue. -/
inductive Call
  | queueCmd (cmd : Bytes) (pwd lpwd : Option Bytes) (pos : Int)
  | delJob (from_ : Int)
  | delJobs (cmd : Bytes)
  | moveJob (from_ to_ : Int)
  | moveJobs (cmd : Bytes) (to_ : Int)

/-- The calls that the command `queue` makes: `-1` is never the job to move. -/
def Call.Admitted : Call → Prop
  | moveJob from_ _ => from_ ≠ -1
  | _ => True

section
variable (malloc : Malloc) (fnmatch : Bytes → Bytes → Bool)

def Call.exec : Call → JobList → Except Fault (Bool × JobList)
  | queueCmd cmd pwd lpwd pos, q =>
    (QueueLinks.queueCmd malloc cmd pwd lpwd pos q).map fun q => (true, q)
  | delJob from_, q => QueueLinks.delJob from_ q
  | delJobs cmd, q => QueueLinks.delJobs fnmatch cmd q
  | moveJob from_ to_, q => QueueLinks.moveJob from_ to_ q
  | moveJobs cmd to_, q => QueueLinks.moveJobs fnmatch cmd to_ q

/-- The jobs that a call takes out of the list. -/
def Call.selects (es : List Entry) : Call → Entry → Bool
  | queueCmd .., _ => false
  | delJob from_, e => picked from_ es = some e
  | delJobs cmd, e => fnmatch cmd e.2.cmd
  | moveJob from_ _, e => picked from_ es = some e
  | moveJobs cmd _, e => fnmatch cmd e.2.cmd

/-- What a call is for: a new job comes to its place, exactly the selected jobs are deleted, or
they go together to their place and no other job changes its order. -/
def Call.Does (c : Call) (es : List Entry) (found : Bool) (es' : List Entry) : Prop :=
  match c with
  | queueCmd cmd pwd lpwd pos => found = true ∧ ∃ a ∉ keys es,
      es' = es.take (place pos es) ++ (a, newJob cmd pwd lpwd) :: es.drop (place pos es)
  | delJob _ | delJobs _ => found = es.any (c.selects fnmatch es)
      ∧ es' = es.filter fun e => !c.selects fnmatch es e
  | moveJob from_ to_ => found = (decide (from_ ≠ to_) && es.any (c.selects fnmatch es))
      ∧ es'.Perm es
      ∧ es' = if from_ = to_ then es else moved (c.selects fnmatch es) (place to_ es) es
  | moveJobs _ to_ => found = es.any (c.selects fnmatch es) ∧ es'.Perm es
      ∧ es' = moved (c.selects fnmatch es) (place to_ es) es

def execAll : List Call → JobList → Except Fault (List Bool × JobList)
  | [], q => .ok ([], q)
  | c :: calls, q => do
    let r ← c.exec malloc fnmatch q
    let rs ← execAll calls r.2
    .ok (r.1 :: rs.1, rs.2)

/-- What one call after the other is for. -/
def DoesAll : List Call → List Entry → List Bool → List Entry → Prop
  | [], es, found, es' => found = [] ∧ es' = es
  | c :: calls, es, found, es'' => ∃ b bs es', found = b :: bs ∧ c.Does fnmatch es b es'
      ∧ DoesAll calls es' bs es''

variable {malloc fnmatch} {q : JobList} {es : List Entry}

/-- No pointer is invalid and no assertion fails, and a call does what it is for. -/
theorem exec_does {c : Call} (hAdmitted : c.Admitted) (h : WellFormed q es) :
    ∃ found q' es', c.exec malloc fnmatch q = .ok (found, q') ∧ WellFormed q' es'
      ∧ c.Does fnmatch es found es' := by
  cases c with
  | queueCmd cmd pwd lpwd pos =>
      obtain ⟨q', a, hExec, hNew, hWell⟩ := queueCmd_spec malloc h cmd pwd lpwd pos
      exact ⟨true, q', _, by rw [Call.exec, hExec]; rfl, hWell, rfl, a, hNew, rfl⟩
  | delJob from_ =>
      obtain ⟨q', hExec, hWell⟩ := delJob_spec h from_
      exact ⟨_, q', _, hExec, hWell, rfl, rfl⟩
  | delJobs cmd =>
      obtain ⟨q', hExec, hWell⟩ := delJobs_spec h cmd
      exact ⟨_, q', _, hExec, hWell, rfl, rfl⟩
  | moveJob from_ to_ =>
      obtain ⟨q', hExec, hWell⟩ := moveJob_spec h hAdmitted to_
      refine ⟨_, q', _, hExec, hWell, rfl, ?_, rfl⟩
      split
      · exact List.Perm.refl es
      · exact moved_perm _ _ es
  | moveJobs cmd to_ =>
      obtain ⟨q', hExec, hWell⟩ := moveJobs_spec h cmd to_
      exact ⟨_, q', _, hExec, hWell, rfl, moved_perm _ _ es, rfl⟩

/-- Every sequence of admitted calls does what the calls are for. -/
theorem run_exact {calls : List Call} (hAdmitted : ∀ c ∈ calls, c.Admitted) (h : WellFormed q es) :
    ∃ found q' es', execAll malloc fnmatch calls q = .ok (found, q') ∧ WellFormed q' es'
      ∧ DoesAll fnmatch calls es found es' := by
  induction calls generalizing q es with
  | nil => exact ⟨[], q, es, rfl, h, rfl, rfl⟩
  | cons c calls ih =>
      rw [List.forall_mem_cons] at hAdmitted
      obtain ⟨b, q₁, es₁, hExec, hWell, hDoes⟩ := exec_does hAdmitted.1 h
      obtain ⟨bs, q₂, es₂, hExec', hWell', hDoes'⟩ := ih hAdmitted.2 hWell
      refine ⟨b :: bs, q₂, es₂, ?_, hWell', b, bs, es₁, rfl, hDoes, hDoes'⟩
      rw [execAll, hExec, ok_bind, hExec', ok_bind]

end

/-- Addresses above all others. -/
def Malloc.above : Malloc where
  address used := used.sum + 1
  fresh used hMem := by
    have hLe := List.le_sum_of_mem hMem
    omega

theorem run_exact_move :
    ∃ found q' es', execAll .above (fun pattern cmd => pattern.isPrefixOf cmd)
        [.queueCmd (bytes "get a") none none (-1), .queueCmd (bytes "put b") none none (-1),
          .moveJob 1 0, .moveJobs (bytes "get") 0, .delJob (-1)] ⟨.empty, none, none⟩
        = .ok (found, q')
      ∧ WellFormed q' es' ∧ DoesAll (fun pattern cmd => pattern.isPrefixOf cmd)
        [.queueCmd (bytes "get a") none none (-1), .queueCmd (bytes "put b") none none (-1),
          .moveJob 1 0, .moveJobs (bytes "get") 0, .delJob (-1)] [] found es' := by
  refine run_exact ?_ ⟨⟨trivial, rfl, rfl⟩, List.nodup_nil, fun a ha => ha⟩
  simp only [List.forall_mem_cons, Call.Admitted, List.not_mem_nil, false_imp_iff, implies_true]
  decide

/-! ## The command `queue` -/

/-- What a call does to the jobs without their addresses. -/
def Call.onJobs (env : QueueFeeder.Env) : Call → List QueueJob → Bool × List QueueJob
  | queueCmd cmd pwd lpwd pos, jobs => (true, QueueFeeder.queueCmd cmd pwd lpwd pos jobs)
  | delJob from_, jobs => QueueFeeder.delJob from_ jobs
  | delJobs cmd, jobs => QueueFeeder.delJobs env cmd jobs
  | moveJob from_ to_, jobs => QueueFeeder.moveJob from_ to_ jobs
  | moveJobs cmd to_, jobs => QueueFeeder.moveJobs env cmd to_ jobs

section
variable {env : QueueFeeder.Env} {es es' xs ys : List Entry} {e : Entry} {found : Bool}

/-- The jobs of a list without their addresses. -/
def jobsOf (es : List Entry) : List QueueJob := es.map Prod.snd

theorem getJob_picked (n : Int) (es : List Entry) :
    (QueueFeeder.getJob n (jobsOf es) = none ∧ picked n es = none) ∨
      ∃ xs e ys, es = xs ++ e :: ys ∧ QueueFeeder.getJob n (jobsOf es) = some xs.length
        ∧ picked n es = some e := by
  unfold QueueFeeder.getJob picked jobsOf
  rw [List.length_map]
  by_cases hn : n = -1
  · rw [if_pos hn, if_pos hn]
    rcases List.eq_nil_or_concat es with rfl | ⟨xs, e, rfl⟩
    · exact .inl ⟨rfl, rfl⟩
    · right
      rw [List.concat_eq_append]
      refine ⟨xs, e, [], rfl, ?_, List.getLast?_concat ..⟩
      simp
  · rw [if_neg hn, if_neg hn]
    by_cases hIn : 0 ≤ n ∧ n < es.length
    · have hLess : n.toNat < es.length := by omega
      right
      rw [if_pos hIn, if_pos hIn.1]
      refine ⟨es.take n.toNat, es[n.toNat], es.drop (n.toNat + 1), ?_, ?_, ?_⟩
      · rw [← List.drop_eq_getElem_cons hLess, List.take_append_drop]
      · rw [List.length_take, Nat.min_eq_left (Nat.le_of_lt hLess)]
      · exact List.getElem?_eq_getElem hLess
    · left
      rw [if_neg hIn]
      refine ⟨rfl, ?_⟩
      split
      · exact List.getElem?_eq_none (by omega)
      · rfl

theorem before_eq (n : Int) (es : List Entry) :
    (if n ≠ -1 then QueueFeeder.getJob n (jobsOf es) else none)
      = if place n es < es.length then some (place n es) else none := by
  unfold QueueFeeder.getJob place jobsOf
  rw [List.length_map]
  by_cases hn : n = -1
  · subst hn
    simp
  · rw [if_pos hn, if_neg hn]
    by_cases hPos : 0 ≤ n
    · rw [if_pos hPos]
      split <;> split <;> first | rfl | omega
    · rw [if_neg (by omega), if_neg hPos, if_neg (Nat.lt_irrefl _)]

theorem insertJobs_eq (left job right : List QueueJob) :
    QueueFeeder.insertJobs job (left ++ right) (some left.length) = left ++ job ++ right := by
  rw [QueueFeeder.insertJobs, List.take_left, List.drop_left]

/-- Jobs go to the place of a number, whether or not there is a job at it. -/
theorem insertJobs_place (n : Int) (jobs : List QueueJob) {left right : List Entry} {b : Nat}
    (hEnd : es.length ≤ place n es → right = [])
    (hLength : place n es < es.length → b = left.length) :
    QueueFeeder.insertJobs jobs (jobsOf (left ++ right))
      (if place n es < es.length then some b else none) = jobsOf left ++ jobs ++ jobsOf right := by
  have hJobs : jobsOf (left ++ right) = jobsOf left ++ jobsOf right := List.map_append
  rw [hJobs]
  by_cases hPlace : place n es < es.length
  · have hb : b = (jobsOf left).length := (hLength hPlace).trans (List.length_map _).symm
    rw [if_pos hPlace, hb, insertJobs_eq]
  · rw [if_neg hPlace, hEnd (Nat.le_of_not_lt hPlace)]
    show _ ++ _ ++ _ = _ ++ _ ++ []
    rw [show jobsOf [] = [] from rfl, List.append_nil, List.append_nil]

theorem queueCmd_jobs (cmd : Bytes) (pwd lpwd : Option Bytes) (pos : Int) (a : Nat)
    (es : List Entry) : QueueFeeder.queueCmd cmd pwd lpwd pos (jobsOf es)
      = jobsOf (es.take (place pos es) ++ (a, newJob cmd pwd lpwd) :: es.drop (place pos es)) := by
  have hLength : place pos es < es.length → place pos es = (es.take (place pos es)).length := by
    intro hLess
    rw [List.length_take, Nat.min_eq_left (Nat.le_of_lt hLess)]
  have hInsert := insertJobs_place pos [newJob cmd pwd lpwd] List.drop_eq_nil_of_le hLength
  rw [List.take_append_drop, ← before_eq] at hInsert
  rw [QueueFeeder.queueCmd]
  refine hInsert.trans ?_
  unfold jobsOf
  rw [List.map_append, List.map_cons, List.append_assoc]
  rfl

theorem delJob_jobs (hNodup : (keys es).Nodup) (from_ : Int) :
    QueueFeeder.delJob from_ (jobsOf es) = (es.any fun e => decide (picked from_ es = some e),
      jobsOf (es.filter fun e => !decide (picked from_ es = some e))) := by
  unfold QueueFeeder.delJob
  rcases getJob_picked from_ es with ⟨hGet, hPicked⟩ | ⟨xs, e, ys, hSplit, hGet, hPicked⟩
  · rw [hGet, hPicked]
    simp
  · rw [hGet, hPicked]
    subst hSplit
    rw [(filter_entry hNodup).2]
    dsimp only
    unfold jobsOf
    rw [List.map_append, List.map_append, List.map_cons,
      List.eraseIdx_append_of_length_le (by rw [List.length_map]), List.length_map, Nat.sub_self]
    simp

theorem filter_jobs (fnmatch : Bytes → Bytes → Bool) (cmd : Bytes) (es : List Entry) :
    ((jobsOf es).any fun j => fnmatch cmd j.cmd) = (es.any fun e => fnmatch cmd e.2.cmd)
      ∧ ((jobsOf es).filter fun j => fnmatch cmd j.cmd) = jobsOf (es.filter fun e => fnmatch cmd e.2.cmd)
      ∧ ((jobsOf es).filter fun j => !fnmatch cmd j.cmd)
        = jobsOf (es.filter fun e => !fnmatch cmd e.2.cmd) := by
  unfold jobsOf
  rw [List.any_map, List.filter_map, List.filter_map]
  exact ⟨rfl, rfl, rfl⟩

theorem moveJobs_jobs (cmd : Bytes) (to_ : Int) (es : List Entry) :
    QueueFeeder.moveJobs env cmd to_ (jobsOf es) = (es.any fun e => env.fnmatch cmd e.2.cmd,
      jobsOf (moved (fun e => env.fnmatch cmd e.2.cmd) (place to_ es) es)) := by
  obtain ⟨hAny, hSelected, hKept⟩ := filter_jobs env.fnmatch cmd es
  unfold QueueFeeder.moveJobs
  dsimp only
  rw [hAny, hSelected, hKept, before_eq, kept_eq _ (place to_ es), apply_ite (Option.map _),
    Option.map_some, Option.map_none]
  rw [insertJobs_place]
  · unfold moved jobsOf
    rw [List.map_append, List.map_append]
  · intro hLe
    rw [List.drop_eq_nil_of_le hLe]
    rfl
  · intro _
    have hTake : (jobsOf es).take (place to_ es) = jobsOf (es.take (place to_ es)) :=
      List.map_take.symm
    rw [hTake, (filter_jobs env.fnmatch cmd _).2.2]
    exact List.length_map _

/-- Where one job is taken out, the places behind it move up. -/
theorem length_kept (hNodup : (keys (xs ++ e :: ys)).Nodup) {i : Nat}
    (hLess : i < (xs ++ e :: ys).length) :
    (((xs ++ e :: ys).take i).filter fun e' => !decide (some e = some e')).length
      = if xs.length < i then i - 1 else i := by
  have hNe := (apart_of_nodup hNodup).left_ne
  rw [List.length_append, List.length_cons] at hLess
  rw [List.take_append]
  by_cases hBefore : xs.length < i
  · obtain ⟨k, rfl⟩ := Nat.exists_eq_add_of_lt hBefore
    have hSub : (keys (xs ++ e :: ys.take k)).Nodup := by
      refine List.Nodup.sublist ?_ hNodup
      exact (((List.take_sublist k ys).cons_cons e).append_left xs).map Prod.fst
    have hCount : xs.length + k + 1 - xs.length = k + 1 := by omega
    rw [if_pos hBefore, hCount, List.take_succ_cons, List.take_of_length_le (by omega),
      (filter_entry hSub).2, List.length_append, List.length_take, Nat.min_eq_left (by omega)]
    omega
  · rw [if_neg hBefore, Nat.sub_eq_zero_of_le (by omega), List.take_zero, List.append_nil,
      List.filter_eq_self.mpr, List.length_take, Nat.min_eq_left (by omega)]
    intro e' he'
    rw [Bool.not_eq_true', decide_eq_false_iff_not, Option.some.injEq]
    rintro rfl
    exact hNe (List.mem_map.mpr ⟨e, List.mem_of_mem_take he', rfl⟩)

theorem moveJob_jobs (hNodup : (keys es).Nodup) (from_ to_ : Int) :
    QueueFeeder.moveJob from_ to_ (jobsOf es)
      = (decide (from_ ≠ to_) && es.any fun e => decide (picked from_ es = some e),
        jobsOf (if from_ = to_ then es
          else moved (fun e => decide (picked from_ es = some e)) (place to_ es) es)) := by
  unfold QueueFeeder.moveJob
  by_cases hSame : from_ = to_
  · rw [if_pos hSame, if_pos hSame, decide_eq_false (not_not.mpr hSame), Bool.false_and]
  rw [if_neg hSame, if_neg hSame, decide_eq_true hSame, Bool.true_and]
  dsimp only
  rw [before_eq]
  rcases getJob_picked from_ es with ⟨hGet, hPicked⟩ | ⟨xs, e, ys, hSplit, hGet, hPicked⟩
  · rw [hGet, hPicked, moved_of_none (by simp)]
    simp
  · obtain ⟨hSelected, hKept⟩ := filter_entry (hSplit ▸ hNodup)
    have hAt : (jobsOf es)[xs.length]? = some e.2 := by
      rw [hSplit, jobsOf, List.getElem?_map, List.getElem?_append_right (Nat.le_refl _),
        Nat.sub_self]
      rfl
    have hErase : (jobsOf es).eraseIdx xs.length = jobsOf (xs ++ ys) := by
      rw [hSplit]
      unfold jobsOf
      rw [List.map_append, List.map_append, List.map_cons,
        List.eraseIdx_append_of_length_le (by rw [List.length_map]), List.length_map, Nat.sub_self]
      rfl
    have hLength : place to_ es < es.length →
        (if xs.length < place to_ es then place to_ es - 1 else place to_ es)
          = ((es.take (place to_ es)).filter fun e' => !decide (some e = some e')).length := by
      intro hLess
      rw [hSplit] at hNodup
      have hCount := length_kept hNodup (hSplit ▸ hLess)
      rw [← hSplit] at hCount
      exact hCount.symm
    have hAny : (es.any fun e' => decide (some e = some e')) = true := by
      rw [any_eq, hSplit, hSelected]
      rfl
    rw [← hSplit] at hSelected hKept
    rw [kept_eq _ (place to_ es)] at hKept
    rw [hGet, hPicked, hAny]
    dsimp only
    rw [hAt, hErase, ← hKept, apply_ite (Option.map _), Option.map_some, Option.map_none,
      insertJobs_place to_ _ _ hLength]
    · unfold moved jobsOf
      rw [hSelected, List.map_append, List.map_append]
      rfl
    · intro hLe
      rw [List.drop_eq_nil_of_le hLe]
      rfl

/-- What a call is for is what the functions on lists of jobs do. -/
theorem does_onJobs (hNodup : (keys es).Nodup) {c : Call} (h : c.Does env.fnmatch es found es') :
    c.onJobs env (jobsOf es) = (found, jobsOf es') := by
  cases c with
  | queueCmd cmd pwd lpwd pos =>
      obtain ⟨rfl, a, -, rfl⟩ := h
      exact congrArg (Prod.mk true) (queueCmd_jobs cmd pwd lpwd pos a es)
  | delJob from_ =>
      obtain ⟨rfl, rfl⟩ := h
      exact delJob_jobs hNodup from_
  | delJobs cmd =>
      obtain ⟨rfl, rfl⟩ := h
      obtain ⟨hAny, -, hKept⟩ := filter_jobs env.fnmatch cmd es
      exact congrArg₂ Prod.mk hAny hKept
  | moveJob from_ to_ =>
      obtain ⟨rfl, -, rfl⟩ := h
      exact moveJob_jobs hNodup from_ to_
  | moveJobs cmd to_ =>
      obtain ⟨rfl, -, rfl⟩ := h
      exact moveJobs_jobs cmd to_ es

/-- The command `queue` makes no call or an admitted one. -/
theorem queue_calls (env : QueueFeeder.Env) (args : List Bytes) (s : QueueFeeder.Session) :
    (QueueFeeder.builtinQueue env args s).jobs = s.jobs ∨ ∃ c : Call, c.Admitted
      ∧ (QueueFeeder.builtinQueue env args s).jobs = (c.onJobs env s.jobs).2 := by
  unfold QueueFeeder.builtinQueue
  dsimp only
  split
  · exact .inl rfl
  · split
    · exact .inl rfl
    split
    · exact .inl rfl
    · exact .inr ⟨.queueCmd _ _ _ _, trivial, rfl⟩
  · split
    · exact .inr ⟨.delJob _, trivial, rfl⟩
    split
    · exact .inr ⟨.delJob _, trivial, rfl⟩
    · exact .inr ⟨.delJobs _, trivial, rfl⟩
  · split
    · exact .inl rfl
    split
    · rename_i hNumber
      refine .inr ⟨.moveJob _ _, ?_, rfl⟩
      show _ - 1 ≠ (-1 : Int)
      omega
    · exact .inr ⟨.moveJobs _ _, trivial, rfl⟩

end

end Lftp.Ports.QueueLinks
