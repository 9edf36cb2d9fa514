import Lftp.Verified.Runs
import Lftp.Ports.XMap

/-!
# Telling a peer about the other peers

A translation of `TorrentPeer::SendPEXPeers`, over the translation of `xmap`. A
message lists the addresses added and dropped since the message before it; what
has been announced and not dropped is kept in `pex.sent`.

* `announced` is that set, read off the messages; `Consistent` says that every
  message adds only what was not announced and drops only what was.
* `Sound` is the condition on a call under which the set is kept right.
* `pex_consistent` is the run theorem. A call that meets an announced peer
  again takes it out of `pex.sent`, and `not_pex_consistent` is such a run.
-/

namespace Lftp.Ports.TorrentPex

open Lftp.Verified

/-- What `SendPEXPeers` asks of a peer of the torrent. -/
structure Candidate where
  connected : Bool
  passive : Bool
  failed : Bool
  compatible : Bool
  isThis : Bool
  myself : Bool
  seed : Bool
  compact : Bytes

/-- The test that the loop makes first. -/
def Candidate.eligible (p : Candidate) : Bool :=
  p.connected && !p.passive && !p.failed && p.compatible && !p.isThis && !p.myself

/-- `pex.CONNECTABLE` and `pex.SEED`. -/
def connectable : UInt8 := 16
def seedFlag : UInt8 := 2

/-- The six strings of a message; those of addresses as lists of addresses. -/
structure PexMessage where
  added : List Bytes
  addedF : Bytes
  added6 : List Bytes
  added6F : Bytes
  dropped : List Bytes
  dropped6 : List Bytes

namespace PexMessage

def empty : PexMessage := ⟨[], [], [], [], [], []⟩

/-- All addresses announced as added. -/
def adds (m : PexMessage) : List Bytes := m.added ++ m.added6

/-- All addresses announced as dropped. -/
def drops (m : PexMessage) : List Bytes := m.dropped ++ m.dropped6

def add (m : PexMessage) (ca : Bytes) (f : UInt8) : PexMessage :=
  if ca.length = 6 then { m with added := m.added ++ [ca], addedF := m.addedF ++ [f] }
  else { m with added6 := m.added6 ++ [ca], added6F := m.added6F ++ [f] }

def drop (m : PexMessage) (ca : Bytes) : PexMessage :=
  if ca.length = 6 then { m with dropped := m.dropped ++ [ca] }
  else { m with dropped6 := m.dropped6 ++ [ca] }

/-- The dictionary, without the keys that have no addresses. -/
def strings (m : PexMessage) : List (String × Bytes) :=
  (if m.added = [] then [] else [("added", m.added.flatten), ("added.f", m.addedF)])
    ++ (if m.added6 = [] then [] else [("added6", m.added6.flatten), ("added6.f", m.added6F)])
    ++ (if m.dropped = [] then [] else [("dropped", m.dropped.flatten)])
    ++ (if m.dropped6 = [] then [] else [("dropped6", m.dropped6.flatten)])

end PexMessage

/-- The variables of `SendPEXPeers`. -/
structure Locals where
  oldSent : XMap UInt8
  sent : XMap UInt8
  peerCount : Nat
  msg : PexMessage

/-- One turn of the loop over the peers. -/
def considerPeer (s : Locals) (p : Candidate) : Locals :=
  if !p.eligible then s
  else if s.oldSent.isThere p.compact then { s with oldSent := s.oldSent.remove p.compact }
  else
    let f := if p.seed then connectable ||| seedFlag else connectable
    let s := { s with peerCount := s.peerCount + 1 }
    if 50 < s.peerCount then s
    else { s with msg := s.msg.add p.compact f, sent := s.sent.add p.compact f }

/-- One turn of the loop over what is left in `old_sent`. -/
def considerDropped (s : Locals) (ca : Bytes) : Locals :=
  let s := { s with peerCount := s.peerCount + 1 }
  if 50 < s.peerCount then { s with sent := s.sent.add ca 0 }
  else { s with msg := s.msg.drop ca }

/-- The loop over the peers, from the last one to the first. -/
def addPeers (peers : List Candidate) (sent : XMap UInt8) : Locals :=
  peers.reverse.foldl considerPeer ⟨XMap.new.moveHere sent, sent.movedAway, 0, .empty⟩

/-- The loop over `old_sent`. -/
def dropPeers (s : Locals) : Locals :=
  s.oldSent.loopKeys.foldl considerDropped { s with peerCount := 0 }

/-- `SendPEXPeers`: the new `pex.sent`, and the message if there is one. -/
def sendPEXPeers (msgExtPex : Int) (isPrivate : Bool) (peers : List Candidate)
    (sent : XMap UInt8) : XMap UInt8 × Option PexMessage :=
  if msgExtPex = 0 ∨ isPrivate then (sent, none)
  else
    let s := dropPeers (addPeers peers sent)
    if s.msg.adds = [] ∧ s.msg.drops = [] then (s.sent, none) else (s.sent, some s.msg)

/-! ## What has been announced -/

/-- The addresses announced as added and not dropped since. -/
def announced (h : List PexMessage) : Finset Bytes :=
  h.foldl (fun A m => (A \ m.drops.toFinset) ∪ m.adds.toFinset) ∅

theorem announced_concat (h : List PexMessage) (m : PexMessage) :
    announced (h ++ [m]) = (announced h \ m.drops.toFinset) ∪ m.adds.toFinset := by
  unfold announced
  rw [List.foldl_append]
  rfl

/-- Each message adds only addresses that were not announced, and drops only such as were. -/
inductive Consistent : List PexMessage → Prop
  | nil : Consistent []
  | concat {h : List PexMessage} {m : PexMessage} (before : Consistent h)
      (addsOnce : m.adds.Nodup) (addsNew : ∀ a ∈ m.adds, a ∉ announced h)
      (dropsOnce : m.drops.Nodup) (dropsOld : ∀ a ∈ m.drops, a ∈ announced h) :
      Consistent (h ++ [m])

/-- One connection: `pex.sent` and the messages sent. -/
structure State where
  sent : XMap UInt8
  history : List PexMessage

def start : State := ⟨.new, []⟩

/-- A call of `SendPEXPeers` with what it finds in the peer and the torrent. -/
structure Call where
  msgExtPex : Int
  isPrivate : Bool
  peers : List Candidate

/-- The addresses of the eligible peers, in the order of the loop. -/
def Call.addresses (c : Call) : List Bytes :=
  (c.peers.reverse.filter Candidate.eligible).map Candidate.compact

def act (s : State) (c : Call) : State :=
  let r := sendPEXPeers c.msgExtPex c.isPrivate c.peers s.sent
  ⟨r.1, s.history ++ r.2.toList⟩

/-- None of the eligible peers is in `pex.sent`, and those that fit into the
message have different addresses. -/
def Sound (s : State) (c : Call) : Prop :=
  c.msgExtPex = 0 ∨ c.isPrivate = true
    ∨ (∀ a ∈ c.addresses, s.sent.isThere a = false) ∧ (c.addresses.take 50).Nodup

/-! ## The two loops -/

variable {A B : Finset Bytes} {L : List Bytes} {s : Locals} {sent : XMap UInt8}

theorem adds_add (m : PexMessage) (ca : Bytes) (f : UInt8) :
    (m.add ca f).adds.Perm (m.adds ++ [ca]) := by
  unfold PexMessage.add PexMessage.adds
  split
  · show ((m.added ++ [ca]) ++ m.added6).Perm (m.added ++ m.added6 ++ [ca])
    rw [List.append_assoc, List.append_assoc]
    exact List.perm_append_comm.append_left m.added
  · show (m.added ++ (m.added6 ++ [ca])).Perm (m.added ++ m.added6 ++ [ca])
    rw [List.append_assoc]

theorem drops_add (m : PexMessage) (ca : Bytes) (f : UInt8) : (m.add ca f).drops = m.drops := by
  unfold PexMessage.add
  split <;> rfl

theorem drops_drop (m : PexMessage) (ca : Bytes) : (m.drop ca).drops.Perm (m.drops ++ [ca]) := by
  unfold PexMessage.drop PexMessage.drops
  split
  · show ((m.dropped ++ [ca]) ++ m.dropped6).Perm (m.dropped ++ m.dropped6 ++ [ca])
    rw [List.append_assoc, List.append_assoc]
    exact List.perm_append_comm.append_left m.dropped
  · show (m.dropped ++ (m.dropped6 ++ [ca])).Perm (m.dropped ++ m.dropped6 ++ [ca])
    rw [List.append_assoc]

theorem adds_drop (m : PexMessage) (ca : Bytes) : (m.drop ca).adds = m.adds := by
  unfold PexMessage.drop
  split <;> rfl

theorem take_concat_of_lt {n : Nat} (h : L.length < n) (a : Bytes) :
    (L ++ [a]).take n = L ++ [a] := by
  apply List.take_of_length_le
  rw [List.length_append, List.length_singleton]
  omega

theorem take_concat_of_le {n : Nat} (h : n ≤ L.length) (a : Bytes) :
    (L ++ [a]).take n = L.take n :=
  List.take_append_of_le_length h

/-- The loop over the peers has met the new addresses `L`; `A` was sent before. -/
structure Adding (A : Finset Bytes) (L : List Bytes) (s : Locals) : Prop where
  oldSent : XMap.HasKeys s.oldSent A
  peerCount : s.peerCount = L.length
  sent : XMap.HasKeys s.sent (L.take 50).toFinset
  adds : s.msg.adds.Perm (L.take 50)
  drops : s.msg.drops = []

theorem Adding.considerPeer (h : Adding A L s) {p : Candidate}
    (hNew : p.eligible = true → p.compact ∉ A) :
    Adding A (L ++ ([p].filter Candidate.eligible).map Candidate.compact)
      (considerPeer s p) := by
  unfold TorrentPex.considerPeer
  rcases hElig : p.eligible with _ | _
  · rw [List.filter_cons_of_neg (by rw [hElig]; nofun), List.filter_nil, List.map_nil,
      List.append_nil]
    exact h
  · have hThere : ¬ s.oldSent.isThere p.compact = true := by
      rw [h.oldSent.isThere_iff]
      exact hNew hElig
    have hOne : ([p].filter Candidate.eligible).map Candidate.compact = [p.compact] := by
      rw [List.filter_cons_of_pos hElig]
      rfl
    rw [if_neg (by nofun), if_neg hThere, hOne]
    dsimp only
    have hCount := h.peerCount
    have hLen : (L ++ [p.compact]).length = L.length + 1 := by simp
    split
    · have hTake : (L ++ [p.compact]).take 50 = L.take 50 := take_concat_of_le (by omega) _
      exact {
        oldSent := h.oldSent
        peerCount := by
          rw [hLen, ← hCount]
        sent := by
          rw [hTake]
          exact h.sent
        adds := by
          rw [hTake]
          exact h.adds
        drops := h.drops }
    · have hShort : L.length < 50 := by omega
      have hOld : L.take 50 = L := List.take_of_length_le hShort.le
      exact {
        oldSent := h.oldSent
        peerCount := by
          rw [hLen, ← hCount]
        sent := by
          have hSent := h.sent.add p.compact (if p.seed then connectable ||| seedFlag else connectable)
          rw [hOld] at hSent
          rw [take_concat_of_lt hShort, List.toFinset_append, Finset.union_comm]
          exact hSent
        adds := by
          have hAdds := h.adds
          rw [hOld] at hAdds
          rw [take_concat_of_lt hShort]
          exact (adds_add _ _ _).trans (hAdds.append_right _)
        drops := by
          show (s.msg.add _ _).drops = []
          rw [drops_add, h.drops] }

theorem Adding.foldl (h : Adding A L s) {ps : List Candidate}
    (hNew : ∀ p ∈ ps, p.eligible = true → p.compact ∉ A) :
    Adding A (L ++ (ps.filter Candidate.eligible).map Candidate.compact)
      (ps.foldl TorrentPex.considerPeer s) := by
  induction ps generalizing L s with
  | nil =>
      rw [List.filter_nil, List.map_nil, List.append_nil]
      exact h
  | cons p ps ih =>
      have hHead := h.considerPeer (hNew p List.mem_cons_self)
      have hTail := ih hHead fun q hq => hNew q (List.mem_cons_of_mem p hq)
      have hSplit : p :: ps = [p] ++ ps := rfl
      rw [hSplit, List.filter_append, List.map_append, ← List.append_assoc]
      exact hTail

/-- When nothing eligible was sent before, the first fifty addresses are added. -/
theorem adding_addPeers (hSent : XMap.HasKeys sent A) {peers : List Candidate}
    (hNew : ∀ p ∈ peers, p.eligible = true → p.compact ∉ A) :
    Adding A ((peers.reverse.filter Candidate.eligible).map Candidate.compact)
      (addPeers peers sent) := by
  have hStart : Adding A [] ⟨XMap.new.moveHere sent, sent.movedAway, 0, .empty⟩ :=
    ⟨hSent.moveHere _, rfl, XMap.hasKeys_movedAway sent, .refl _, rfl⟩
  exact hStart.foldl fun p hp => hNew p (List.mem_reverse.mp hp)

/-- The loop over `old_sent` has met the keys `L`. -/
structure Dropping (B : Finset Bytes) (adds : List Bytes) (L : List Bytes) (s : Locals) :
    Prop where
  peerCount : s.peerCount = L.length
  sent : XMap.HasKeys s.sent (B ∪ (L.drop 50).toFinset)
  drops : s.msg.drops.Perm (L.take 50)
  adds : s.msg.adds = adds

theorem Dropping.considerDropped {adds : List Bytes} (h : Dropping B adds L s) (ca : Bytes) :
    Dropping B adds (L ++ [ca]) (considerDropped s ca) := by
  unfold TorrentPex.considerDropped
  dsimp only
  have hCount := h.peerCount
  have hLen : (L ++ [ca]).length = L.length + 1 := by simp
  split
  · have hLong : 50 ≤ L.length := by omega
    exact {
      peerCount := by
        rw [hLen, ← hCount]
      sent := by
        rw [List.drop_append_of_le_length hLong, List.toFinset_append, ← Finset.union_assoc,
          Finset.union_comm]
        exact h.sent.add ca 0
      drops := by
        rw [take_concat_of_le hLong]
        exact h.drops
      adds := h.adds }
  · have hShort : L.length < 50 := by omega
    have hOld : L.drop 50 = [] := List.drop_eq_nil_of_le hShort.le
    have hNew : (L ++ [ca]).drop 50 = [] := List.drop_eq_nil_of_le (by omega)
    exact {
      peerCount := by
        rw [hLen, ← hCount]
      sent := by
        have hSent := h.sent
        rw [hOld] at hSent
        rw [hNew]
        exact hSent
      drops := by
        have hDrops := h.drops
        rw [List.take_of_length_le hShort.le] at hDrops
        rw [take_concat_of_lt hShort]
        exact (drops_drop _ _).trans (hDrops.append_right _)
      adds := by
        show (s.msg.drop ca).adds = adds
        rw [adds_drop, h.adds] }

theorem Dropping.foldl {adds : List Bytes} (h : Dropping B adds L s) (ks : List Bytes) :
    Dropping B adds (L ++ ks) (ks.foldl TorrentPex.considerDropped s) := by
  induction ks generalizing L s with
  | nil =>
      rw [List.append_nil]
      exact h
  | cons ca ks ih =>
      have hTail := ih (h.considerDropped ca)
      rw [List.append_assoc] at hTail
      exact hTail

/-- A sound call drops the first fifty addresses of `old_sent` and keeps the rest. -/
theorem dropping_dropPeers (h : Adding A L s) :
    ∃ ks, ks.Nodup ∧ (∀ a, a ∈ ks ↔ a ∈ A) ∧
      Dropping (L.take 50).toFinset s.msg.adds ks (dropPeers s) := by
  rcases h.oldSent.loopKeys with ⟨hNodup, hMem⟩
  have hStart : Dropping (L.take 50).toFinset s.msg.adds [] { s with peerCount := 0 } := by
    refine ⟨rfl, ?_, ?_, rfl⟩
    · rw [List.drop_nil, List.toFinset_nil, Finset.union_empty]
      exact h.sent
    · rw [show PexMessage.drops s.msg = [] from h.drops]
      exact .refl _
  exact ⟨_, hNodup, hMem, hStart.foldl _⟩

/-! ## The run theorem -/

/-- What the run preserves. -/
def Tracks (s : State) : Prop :=
  Consistent s.history ∧ XMap.HasKeys s.sent (announced s.history)

theorem tracks_start : Tracks start := ⟨.nil, XMap.hasKeys_new⟩

/-- Without the kept and the overflowing addresses the set moves as announced. -/
theorem announced_step {ks : List Bytes} (hNodup : ks.Nodup) (hMem : ∀ a, a ∈ ks ↔ a ∈ A)
    {m : PexMessage} (hAdds : m.adds.Perm (L.take 50)) (hDrops : m.drops.Perm (ks.take 50)) :
    (A \ m.drops.toFinset) ∪ m.adds.toFinset = (L.take 50).toFinset ∪ (ks.drop 50).toFinset := by
  rw [List.toFinset_eq_of_perm _ _ hAdds, List.toFinset_eq_of_perm _ _ hDrops, Finset.union_comm]
  congr 1
  have hSplit : (ks.take 50 ++ ks.drop 50).Nodup := by rwa [List.take_append_drop]
  ext a
  rw [Finset.mem_sdiff, List.mem_toFinset, List.mem_toFinset, ← hMem,
    ← List.take_append_drop 50 ks, List.mem_append]
  rw [List.take_append_drop]
  constructor
  · rintro ⟨hTake | hDrop, hNot⟩
    · exact absurd hTake hNot
    · exact hDrop
  · intro hDrop
    exact ⟨Or.inr hDrop, fun hTake => (List.nodup_append.mp hSplit).2.2 a hTake a hDrop rfl⟩

theorem isThere_eq_false_iff {a : Bytes} (h : XMap.HasKeys sent A) :
    sent.isThere a = false ↔ a ∉ A := by
  rw [← Bool.not_eq_true, h.isThere_iff]

/-- One sound call. -/
theorem tracks_act {s : State} (h : Tracks s) {c : Call} (hSound : Sound s c) :
    Tracks (act s c) := by
  rcases h with ⟨hBefore, hSent⟩
  unfold act sendPEXPeers
  dsimp only
  split
  · rw [show (none : Option PexMessage).toList = [] from rfl, List.append_nil]
    exact ⟨hBefore, hSent⟩
  · rename_i hSends
    rcases hSound with hZero | hPrivate | ⟨hNew, hDistinct⟩
    · exact absurd (Or.inl hZero) hSends
    · exact absurd (Or.inr hPrivate) hSends
    · have hFresh : ∀ a ∈ c.addresses, a ∉ announced s.history :=
        fun a ha => (isThere_eq_false_iff hSent).mp (hNew a ha)
      have hAdding : Adding (announced s.history) c.addresses (addPeers c.peers s.sent) := by
        apply adding_addPeers hSent
        intro p hp hElig
        apply hFresh
        apply List.mem_map_of_mem
        exact List.mem_filter.mpr ⟨List.mem_reverse.mpr hp, hElig⟩
      rcases dropping_dropPeers hAdding with ⟨ks, hNodup, hMem, hDropping⟩
      generalize dropPeers (addPeers c.peers s.sent) = d at hDropping ⊢
      have hAdds : d.msg.adds.Perm (c.addresses.take 50) := by
        rw [hDropping.adds]
        exact hAdding.adds
      have hMoved := announced_step hNodup hMem hAdds hDropping.drops
      split
      · rename_i hNothing
        rw [hNothing.1, hNothing.2] at hMoved
        refine ⟨by simpa using hBefore, ?_⟩
        show XMap.HasKeys d.sent (announced (s.history ++ []))
        rw [List.append_nil]
        have hSame : announced s.history =
            (c.addresses.take 50).toFinset ∪ (ks.drop 50).toFinset := by
          rw [← hMoved]
          simp
        rw [hSame]
        exact hDropping.sent
      · constructor
        · apply hBefore.concat
          · exact hAdds.nodup_iff.mpr hDistinct
          · intro a ha
            exact hFresh a (List.mem_of_mem_take (hAdds.subset ha))
          · exact hDropping.drops.nodup_iff.mpr (hNodup.sublist (List.take_sublist 50 ks))
          · intro a ha
            exact (hMem a).mp (List.mem_of_mem_take (hDropping.drops.subset ha))
        · show XMap.HasKeys d.sent (announced (s.history ++ [d.msg]))
          rw [announced_concat, hMoved]
          exact hDropping.sent

/-- In every run of sound calls the messages are consistent, and `pex.sent` is
what they have announced. -/
theorem pex_consistent {s : State} (h : Reach (· = start) (Guarded act Sound) s) :
    Consistent s.history ∧ ∀ a, s.sent.isThere a = true ↔ a ∈ announced s.history := by
  have hTracks : Tracks s := by
    apply Reach.invariant (I := Tracks) _ _ h
    · rintro _ rfl
      exact tracks_start
    · rintro s c _ hs ⟨hSound, rfl⟩
      exact tracks_act hs hSound
  exact ⟨hTracks.1, fun a => hTracks.2.isThere_iff⟩

/-- A connected peer with an address. -/
def samplePeer (compact : Bytes) : Candidate :=
  ⟨true, false, false, true, false, false, false, compact⟩

/-- Two peers are announced and then both leave. -/
theorem pex_consistent_leave :
    let s := [⟨1, false, [samplePeer [10, 0, 0, 1, 26, 225], samplePeer [10, 0, 0, 2, 26, 225]]⟩,
      ⟨1, false, []⟩].foldl act start
    Consistent s.history ∧ ∀ a, s.sent.isThere a = true ↔ a ∈ announced s.history := by
  have hStart : Reach (· = start) (Guarded act Sound) start := .start rfl
  apply pex_consistent
  apply hStart.foldl
  exact ⟨Or.inr (Or.inr ⟨by decide, by decide⟩), Or.inr (Or.inr ⟨nofun, .nil⟩), trivial⟩

/-- The call of the second minute finds the announced peer still there. -/
theorem not_pex_consistent :
    let s := [⟨1, false, [samplePeer [10, 0, 0, 1, 26, 225]]⟩,
      ⟨1, false, [samplePeer [10, 0, 0, 1, 26, 225]]⟩].foldl act start
    ¬ (Consistent s.history ∧ ∀ a, s.sent.isThere a = true ↔ a ∈ announced s.history) := by
  intro s h
  have hThere : s.sent.isThere [10, 0, 0, 1, 26, 225] = true := by
    rw [h.2]
    decide
  exact absurd hThere (by decide)

end Lftp.Ports.TorrentPex
