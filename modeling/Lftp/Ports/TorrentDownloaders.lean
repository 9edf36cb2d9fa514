import Mathlib.Data.List.GetD
import Lftp.Ports.TorrentPeers

/-!
# Who downloads which block

Each piece has an array that names, for each of its blocks, the peer that was
asked for it. `Slots` is what the array promises: a peer named there is
connected and has a request for the block in its queue, and `downloader_count`
is the number of names.

`Disconnect` breaks the promise. `ClearSentQueue()` clears the whole queue only
when the peer has no fast extension; with it, one request goes, and the blocks of
the others stay in the name of a peer that is gone. `ClearsAll` is the condition
under which this does no harm: every block in the name of the peer is that of its
last request.

* `Sound` is the promise of one piece, `Slots` that of the torrent.
* `Quiet` relates states that agree on the arrays and in which no peer has lost
  its connection or a request: such a step keeps the promise.
* `idle_disconnect_iff` says when no block is left in the name of a peer that was
  disconnected.
* `downloaders_exact` is the result over runs.
-/

namespace Lftp.Ports.TorrentPieces

namespace TorrentPiece

/-- The downloader slots, none when the array is not allocated. -/
def slots (i : TorrentPiece) : List (Option Nat) := i.downloader.getD []

/-- The array has `n` slots once it is allocated, and the counter counts those
that are taken. -/
structure Sound (i : TorrentPiece) (n : Nat) : Prop where
  length : ∀ d, i.downloader = some d → d.length = n
  count : i.downloaderCount = (i.slots.countP Option.isSome : Nat)

variable {i : TorrentPiece} {n b : Nat} {o m : Option Nat} {d : List (Option Nat)}

theorem sound_new (n : Nat) : Sound new n := ⟨nofun, rfl⟩

theorem Sound.congr {j : TorrentPiece} (h : Sound i n) (hd : j.downloader = i.downloader)
    (hc : j.downloaderCount = i.downloaderCount) : Sound j n := by
  refine ⟨fun d hSome => h.length d (hd ▸ hSome), ?_⟩
  unfold slots
  rw [hc, hd]
  exact h.count

/-- The counter goes with the slot that changes. -/
theorem Sound.assign (hLength : d.length = n)
    (hCount : i.downloaderCount = (d.countP Option.isSome : Nat)) (hb : b < n) :
    Sound (i.assign d b o m) n := by
  unfold TorrentPiece.assign
  subst hLength
  split
  · next hOld =>
    refine ⟨fun d' hSome => ?_, ?_⟩
    · rw [← Option.some.inj hSome]
      exact List.length_set
    · show i.downloaderCount + _ = ((d.set b m).countP Option.isSome : Nat)
      rw [List.getD_eq_getElem?_getD, List.getElem?_eq_getElem hb, Option.getD_some] at hOld
      rw [List.countP_set hb, hCount, hOld]
      have hPos : o.isSome = true → 0 < d.countP Option.isSome := by
        intro hSome
        apply List.countP_pos_iff.mpr
        exact ⟨d[b], List.getElem_mem hb, hOld ▸ hSome⟩
      cases ho : o.isSome with
      | true =>
          have hPos := hPos ho
          cases m.isSome <;> simp <;> omega
      | false => cases m.isSome <;> simp
  · refine ⟨fun d' hSome => ?_, hCount⟩
    rw [← Option.some.inj hSome]

theorem Sound.setDownloader (h : Sound i n) (hb : o.isSome = true ∨ b < n) :
    Sound (i.setDownloader b o m n) n := by
  unfold TorrentPiece.setDownloader
  cases hd : i.downloader with
  | none =>
      dsimp only
      split
      · exact h
      · next hGo =>
        have hCount := h.count
        unfold slots at hCount
        rw [hd] at hCount
        apply Sound.assign
        · exact List.length_replicate
        · rw [hCount, List.countP_replicate]
          rfl
        · exact hb.resolve_left fun hSome => hGo (.inl hSome)
  | some d =>
      have hLength := h.length d hd
      have hCount := h.count
      unfold slots at hCount
      rw [hd] at hCount
      by_cases hLt : b < n
      · exact Sound.assign hLength hCount hLt
      · have hSome := hb.resolve_right hLt
        show Sound (i.assign d b o m) n
        unfold TorrentPiece.assign
        have hOut : d.getD b none ≠ o := by
          rw [List.getD_eq_getElem?_getD, List.getElem?_eq_none (by omega)]
          intro hEq
          rw [← hEq] at hSome
          exact Bool.false_ne_true hSome
        rw [if_neg hOut]
        exact ⟨fun d' hEq => Option.some.inj hEq ▸ hLength, hCount⟩

theorem Sound.cleanup (h : Sound i n) : Sound i.cleanup n := by
  unfold TorrentPiece.cleanup
  split
  · next hZero => exact ⟨nofun, hZero⟩
  · exact h

theorem getD_set (d : List (Option Nat)) (b : Nat) (m : Option Nat) (c : Nat) :
    (d.set b m).getD c none = if c = b ∧ b < d.length then m else d.getD c none := by
  rw [List.getD_eq_getElem?_getD, List.getD_eq_getElem?_getD, List.getElem?_set]
  by_cases hc : c = b
  · subst hc
    by_cases hLt : c < d.length
    · rw [if_pos rfl, if_pos hLt, if_pos ⟨rfl, hLt⟩]
      rfl
    · rw [if_pos rfl, if_neg hLt, if_neg fun h => hLt h.2,
        List.getElem?_eq_none (Nat.le_of_not_lt hLt)]
  · rw [if_neg (Ne.symm hc), if_neg fun h => hc h.1]

/-- Clearing a slot touches no other. -/
theorem downloaderFor_clear (i : TorrentPiece) (b a n c : Nat) :
    (i.setDownloader b (some a) none n).downloaderFor c =
      if c = b ∧ i.downloaderFor b = some a then none else i.downloaderFor c := by
  unfold setDownloader
  cases hd : i.downloader with
  | none =>
      have hNone : ∀ c, i.downloaderFor c = none := by
        intro c
        unfold downloaderFor
        rw [hd]
      dsimp only
      rw [if_pos (.inl rfl), hNone c, ite_self]
  | some d =>
      have hFor : ∀ c, i.downloaderFor c = d.getD c none := by
        intro c
        unfold downloaderFor
        rw [hd]
      dsimp only
      rw [hFor b, hFor c]
      unfold assign
      by_cases hOld : d.getD b none = some a
      · have hLt : b < d.length := by
          apply Nat.lt_of_not_le
          intro hLe
          rw [List.getD_eq_getElem?_getD, List.getElem?_eq_none hLe] at hOld
          exact absurd hOld nofun
        rw [if_pos hOld]
        show (d.set b none).getD c none = _
        rw [getD_set]
        by_cases hc : c = b
        · rw [if_pos ⟨hc, hLt⟩, if_pos ⟨hc, hOld⟩]
        · rw [if_neg fun h => hc h.1, if_neg fun h => hc h.1]
      · rw [if_neg hOld, if_neg fun h => hOld h.2]
        rfl

/-- Only the slot asked for can be taken. -/
theorem downloaderFor_take {a c j : Nat}
    (h : (i.setDownloader b none (some a) n).downloaderFor c = some j) :
    i.downloaderFor c = some j ∨ (c = b ∧ j = a) := by
  have hAssign : ∀ d : List (Option Nat), i.downloaderFor c = d.getD c none →
      (i.assign d b none (some a)).downloaderFor c = some j →
      i.downloaderFor c = some j ∨ (c = b ∧ j = a) := by
    intro d hFor hNew
    unfold assign at hNew
    rw [hFor]
    split at hNew
    · change (d.set b (some a)).getD c none = some j at hNew
      rw [getD_set] at hNew
      split at hNew
      · next hc => exact .inr ⟨hc.1, (Option.some.inj hNew).symm⟩
      · exact .inl hNew
    · exact .inl hNew
  unfold setDownloader at h
  cases hd : i.downloader with
  | none =>
      rw [hd] at h
      dsimp only at h
      rw [if_neg (by simp)] at h
      apply hAssign (List.replicate n none)
      · unfold downloaderFor
        rw [hd]
        exact (List.getElem?_getD_replicate_default_eq none n c).symm
      · exact h
  | some d =>
      rw [hd] at h
      apply hAssign d
      · unfold downloaderFor
        rw [hd]
      · exact h

end TorrentPiece

end Lftp.Ports.TorrentPieces

namespace Lftp.Ports.TorrentPeers

open Lftp.Verified
open Lftp.Ports.TorrentPacket
open Lftp.Ports.TorrentPieces
open Torrent

variable {t t' t'' : Torrent} {i j p b : Nat} {q : Peer}

/-- The queue of the peer has a request for the block. -/
def Peer.Asks (q : Peer) (p b : Nat) : Prop :=
  ∃ req ∈ q.sentQueue, req.index = p ∧ req.start = b * blockSize

/-- The peer is connected. -/
def Torrent.Live (t : Torrent) (i : Nat) : Prop :=
  ∃ q, t.peers.get i = some q ∧ q.isConnected = true

/-- The peer is connected and has a request for the block. -/
def Torrent.Asked (t : Torrent) (i p b : Nat) : Prop :=
  ∃ q, t.peers.get i = some q ∧ q.isConnected = true ∧ q.Asks p b

/-- No block is in the name of the peer. -/
def Torrent.Idle (t : Torrent) (i : Nat) : Prop := ∀ p b, t.slot p b ≠ some i

/-- What the downloader slots promise. -/
structure Slots (t : Torrent) : Prop where
  sound : ∀ p, (t.piece p).Sound (t.table.blocksInPieceOf p)
  owned : ∀ p b i, t.slot p b = some i → t.Asked i p b

/-! ## Slots that change -/

/-- `SetDownloader` for the peer's own block clears that slot and no other. -/
theorem slot_clear (t : Torrent) (p b i p' b' : Nat) :
    (t.setDownloader p b (some i) none).slot p' b' =
      if p' = p ∧ b' = b ∧ t.slot p b = some i then none else t.slot p' b' := by
  show ((t.modPiece p _).piece p').downloaderFor b' = _
  rw [piece_modPiece]
  by_cases hp : p' = p
  · subst hp
    by_cases hLt : p' < t.table.pieceInfo.length
    · rw [if_pos ⟨rfl, hLt⟩, TorrentPiece.downloaderFor_clear]
      simp only [slot, true_and]
    · have hNone : t.slot p' b ≠ some i := by
        unfold slot piece
        rw [List.getD_eq_getElem?_getD, List.getElem?_eq_none (Nat.le_of_not_lt hLt)]
        exact nofun
      rw [if_neg fun h => hLt h.2, if_neg fun h => hNone h.2.2]
      rfl
  · rw [if_neg fun h => hp h.1, if_neg fun h => hp h.1]
    rfl

theorem slot_release_iff (t : Torrent) (i : Nat) (req : Request) (p b j : Nat) :
    (t.release i req).slot p b = some j ↔
      t.slot p b = some j ∧ ¬(j = i ∧ req.index = p ∧ req.start / blockSize = b) := by
  unfold release
  rw [slot_clear]
  split
  · next h =>
    rcases h with ⟨rfl, rfl, hSlot⟩
    refine ⟨nofun, fun hAnd => absurd ⟨?_, rfl, rfl⟩ hAnd.2⟩
    exact Option.some.inj (hAnd.1.symm.trans hSlot)
  · next h =>
    refine ⟨fun hSlot => ⟨hSlot, ?_⟩, fun hAnd => hAnd.1⟩
    rintro ⟨rfl, rfl, rfl⟩
    exact h ⟨rfl, rfl, hSlot⟩

/-- Releasing requests clears the peer's slots for their blocks. -/
theorem slot_releaseAll_iff (i : Nat) (gone : List Request) (t : Torrent) (p b j : Nat) :
    (gone.foldl (fun t req => t.release i req) t).slot p b = some j ↔
      t.slot p b = some j ∧
        ¬(j = i ∧ ∃ req ∈ gone, req.index = p ∧ req.start / blockSize = b) := by
  induction gone generalizing t with
  | nil => simp
  | cons req gone ih =>
      rw [List.foldl_cons, ih, slot_release_iff, and_assoc, ← not_or, ← and_or_left]
      simp only [List.mem_cons, exists_eq_or_imp]

theorem sound_setDownloader {o n : Option Nat}
    (h : ∀ p, (t.piece p).Sound (t.table.blocksInPieceOf p))
    (hb : o.isSome = true ∨ b < t.table.blocksInPieceOf p) (p' : Nat) :
    ((t.setDownloader p b o n).piece p').Sound
      ((t.setDownloader p b o n).table.blocksInPieceOf p') := by
  show ((t.modPiece p _).piece p').Sound (t.table.blocksInPieceOf p')
  rw [piece_modPiece]
  split
  · next hp => 
    rw [hp.1]
    exact (h p).setDownloader hb
  · exact h p'

theorem peers_releaseAll (i : Nat) (gone : List Request) (t : Torrent) :
    (gone.foldl (fun t req => t.release i req) t).peers = t.peers := by
  induction gone generalizing t with
  | nil => rfl
  | cons req gone ih => exact ih _

theorem sound_releaseAll (gone : List Request)
    (h : ∀ p, (t.piece p).Sound (t.table.blocksInPieceOf p)) (p : Nat) :
    ((gone.foldl (fun t req => t.release i req) t).piece p).Sound
      ((gone.foldl (fun t req => t.release i req) t).table.blocksInPieceOf p) := by
  induction gone generalizing t with
  | nil => exact h p
  | cons req gone ih => exact ih (sound_setDownloader h (.inl rfl))

/-- A peer that asks for a free block may be named there. -/
theorem Slots.take (h : Slots t) (hAsk : t.Asked i p b) (hb : b < t.table.blocksInPieceOf p) :
    Slots (t.setDownloader p b none (some i)) := by
  refine ⟨sound_setDownloader h.sound (.inr hb), fun p' b' j hSlot => ?_⟩
  change ((t.modPiece p _).piece p').downloaderFor b' = some j at hSlot
  rw [piece_modPiece] at hSlot
  split at hSlot
  · next hp =>
    rcases TorrentPiece.downloaderFor_take hSlot with hOld | ⟨rfl, rfl⟩
    · exact h.owned p' b' j hOld
    · rw [hp.1]
      exact hAsk
  · exact h.owned p' b' j hSlot

/-! ## Steps that leave the slots alone -/

/-- The arrays are the same, and no connected peer has lost its connection or a
request. -/
structure Quiet (t t' : Torrent) : Prop where
  downloader : ∀ p, (t'.piece p).downloader = (t.piece p).downloader
  downloader_count : ∀ p, (t'.piece p).downloaderCount = (t.piece p).downloaderCount
  blocks : ∀ p, t'.table.blocksInPieceOf p = t.table.blocksInPieceOf p
  keeps : ∀ i q, t.peers.get i = some q → q.isConnected = true →
    ∃ q', t'.peers.get i = some q' ∧ q'.isConnected = true ∧ q.sentQueue ⊆ q'.sentQueue

namespace Quiet

theorem refl (t : Torrent) : Quiet t t :=
  ⟨fun _ => rfl, fun _ => rfl, fun _ => rfl, fun _ q hq hLive => ⟨q, hq, hLive, List.Subset.refl _⟩⟩

theorem trans (h : Quiet t t') (h' : Quiet t' t'') : Quiet t t'' where
  downloader p := (h'.downloader p).trans (h.downloader p)
  downloader_count p := (h'.downloader_count p).trans (h.downloader_count p)
  blocks p := (h'.blocks p).trans (h.blocks p)
  keeps i q hq hLive := by
    rcases h.keeps i q hq hLive with ⟨q', hq', hLive', hSub⟩
    rcases h'.keeps i q' hq' hLive' with ⟨q'', hq'', hLive'', hSub'⟩
    exact ⟨q'', hq'', hLive'', List.Subset.trans hSub hSub'⟩

theorem slot (h : Quiet t t') (p b : Nat) : t'.slot p b = t.slot p b := by
  unfold Torrent.slot TorrentPiece.downloaderFor
  rw [h.downloader]

theorem live (h : Quiet t t') (hLive : t.Live i) : t'.Live i := by
  rcases hLive with ⟨q, hq, hLive⟩
  rcases h.keeps i q hq hLive with ⟨q', hq', hLive', -⟩
  exact ⟨q', hq', hLive'⟩

/-- Counters and lists of `Torrent` are no part of it. -/
theorem counts (t : Torrent) (m e : Bool) (a c : Int) (l : Option Nat) (n : List Nat) :
    Quiet t ⟨m, t.table, t.peers, a, c, e, l, n⟩ :=
  ⟨fun _ => rfl, fun _ => rfl, fun _ => rfl, (refl t).keeps⟩

theorem modPeer (h : Quiet t t') {f : Peer → Peer}
    (hf : ∀ q : Peer, q.isConnected = true →
      (f q).isConnected = true ∧ q.sentQueue ⊆ (f q).sentQueue) : Quiet t (t'.modPeer i f) := by
  apply h.trans
  refine ⟨fun _ => rfl, fun _ => rfl, fun _ => rfl, fun j q hq hLive => ?_⟩
  by_cases hj : j = i
  · subst hj
    exact ⟨f q, get_modPeer_self hq f, hf q hLive⟩
  · exact ⟨q, (get_modPeer_ne t' hj f).trans hq, hLive, List.Subset.refl _⟩

/-- A change of members other than the connection and the queue. -/
theorem modPeer_same (h : Quiet t t') {f : Peer → Peer}
    (hLive : ∀ q : Peer, (f q).isConnected = q.isConnected)
    (hQueue : ∀ q : Peer, (f q).sentQueue = q.sentQueue) : Quiet t (t'.modPeer i f) := by
  apply h.modPeer
  intro q hConnected
  rw [hLive, hQueue]
  exact ⟨hConnected, List.Subset.refl _⟩

theorem modPiece (h : Quiet t t') {f : TorrentPiece → TorrentPiece}
    (hd : ∀ i, (f i).downloader = i.downloader)
    (hc : ∀ i, (f i).downloaderCount = i.downloaderCount) : Quiet t (t'.modPiece p f) := by
  apply h.trans
  refine ⟨?_, ?_, fun _ => rfl, (refl t').keeps⟩
  · exact piece_modPiece_congr TorrentPiece.downloader hd t' p
  · exact piece_modPiece_congr TorrentPiece.downloaderCount hc t' p

theorem foldl {α : Type} {f : Torrent → α → Torrent} (h : ∀ t a, Quiet t (f t a)) (l : List α)
    (t : Torrent) : Quiet t (l.foldl f t) := by
  induction l generalizing t with
  | nil => exact refl t
  | cons a l ih => exact (h t a).trans (ih _)

end Quiet

theorem Slots.quiet (h : Slots t) (hQuiet : Quiet t t') : Slots t' := by
  refine ⟨fun p => ?_, fun p b i hSlot => ?_⟩
  · rw [hQuiet.blocks]
    exact (h.sound p).congr (hQuiet.downloader p) (hQuiet.downloader_count p)
  · rw [hQuiet.slot] at hSlot
    rcases h.owned p b i hSlot with ⟨q, hq, hLive, req, hReq, hBlock⟩
    rcases hQuiet.keeps i q hq hLive with ⟨q', hq', hLive', hSub⟩
    exact ⟨q', hq', hLive', req, hSub hReq, hBlock⟩

/-- A peer with no blocks may change in any way. -/
theorem Slots.modPeer_idle (h : Slots t) (hIdle : t.Idle i) (f : Peer → Peer) :
    Slots (t.modPeer i f) := by
  refine ⟨h.sound, fun p b j hSlot => ?_⟩
  rcases h.owned p b j hSlot with ⟨q, hq, hLive, hAsks⟩
  have hj : j ≠ i := fun hEq => hIdle p b (hEq ▸ hSlot)
  exact ⟨q, (get_modPeer_ne t hj f).trans hq, hLive, hAsks⟩

/-! ### Interest, choking and the pieces a peer has -/

theorem quiet_setAmInterested (t : Torrent) (i : Nat) (interest : Bool) :
    Quiet t (t.setAmInterested i interest) := by
  unfold setAmInterested
  cases t.peers.get i with
  | none => exact Quiet.refl t
  | some q =>
      dsimp only
      generalize (if q.invalidPieceCount > 5 then false else interest) = interest
      split
      · exact Quiet.refl t
      · apply Quiet.modPeer_same
        · exact Quiet.counts t t.hasMetadata t.endGame _ _ t.lastPiece t.piecesNeeded
        · exact fun _ => rfl
        · exact fun _ => rfl

theorem quiet_setAmChoking (t : Torrent) (i : Nat) (c : Bool) :
    Quiet t (t.setAmChoking i c) := by
  unfold setAmChoking
  cases t.peers.get i with
  | none => exact Quiet.refl t
  | some q =>
      dsimp only
      split
      · exact Quiet.refl t
      · apply Quiet.modPeer_same
        · exact Quiet.counts t t.hasMetadata t.endGame _ _ t.lastPiece t.piecesNeeded
        · exact fun _ => rfl
        · exact fun _ => rfl

theorem quiet_setLastPiece (t : Torrent) (i p : Nat) : Quiet t (t.setLastPiece i p) := by
  unfold setLastPiece
  have hPeer : Quiet t (t.modPeer i fun q =>
      if q.lastPiece.all (fun p => t.table.myBitfield.getBit p) then
        { q with lastPiece := some p } else q) := by
    apply Quiet.modPeer_same
    · exact Quiet.refl t
    · intro q
      split <;> rfl
    · intro q
      split <;> rfl
  dsimp only
  split
  · exact hPeer.trans (Quiet.counts _ _ _ _ _ _ _)
  · exact hPeer

theorem quiet_recordHaving (t : Torrent) (i p : Nat) (having : Bool) (bf : BitField) :
    Quiet t (t.recordHaving i p having bf) := by
  unfold recordHaving
  apply Quiet.modPeer_same
  · exact Quiet.modPiece (Quiet.refl t) (fun _ => rfl) fun _ => rfl
  · exact fun _ => rfl
  · exact fun _ => rfl

theorem quiet_considerPiece (t : Torrent) (i p : Nat) (q : Peer) (having relaxed : Bool) :
    Quiet t (t.considerPiece i p q having relaxed) := by
  have hNeeded : Quiet t
      (if (t.piece p).sourcesCount = 0 then t.setPieceNotWanted p else t) := by
    split
    · exact Quiet.counts t _ _ _ _ _ _
    · exact Quiet.refl t
  apply hNeeded.trans
  unfold considerPiece
  dsimp only
  generalize (if (t.piece p).sourcesCount = 0 then t.setPieceNotWanted p else t) = t'
  split
  · exact (quiet_setAmInterested _ i true).trans (quiet_setLastPiece _ i p)
  · exact Quiet.refl _

theorem quiet_setPieceHaving (t : Torrent) (i p : Nat) (having relaxed : Bool) :
    Quiet t (t.setPieceHaving i p having relaxed) := by
  unfold setPieceHaving
  split
  · exact Quiet.refl t
  · split
    · exact Quiet.refl t
    · split
      · exact Quiet.refl t
      · exact (quiet_recordHaving t i p having _).trans (quiet_considerPiece _ i p _ having relaxed)

theorem quiet_setPiecesHaving (t : Torrent) (i : Nat) (having : Nat → Bool) (relaxed : Bool) :
    Quiet t (t.setPiecesHaving i having relaxed) :=
  Quiet.foldl (fun t p => quiet_setPieceHaving t i p (having p) relaxed) _ t

theorem quiet_dropBitfield (t : Torrent) (i : Nat) : Quiet t (t.dropBitfield i) := by
  unfold dropBitfield
  cases t.peers.get i with
  | none => exact Quiet.refl t
  | some q =>
      dsimp only
      split
      · apply Quiet.modPeer_same
        · exact quiet_setPiecesHaving t i _ false
        · exact fun _ => rfl
        · exact fun _ => rfl
      · exact Quiet.refl t

theorem quiet_establish (t : Torrent) (i : Nat) : Quiet t (t.establish i) := by
  apply (Quiet.refl t).modPeer
  intro q hLive
  split
  · exact ⟨hLive, List.Subset.refl _⟩
  · refine ⟨?_, List.Subset.refl _⟩
    unfold Peer.isConnected at hLive ⊢
    simp only [Bool.and_eq_true] at hLive ⊢
    exact ⟨⟨hLive.1.1, trivial⟩, trivial⟩

/-! ### Storing a block -/

theorem quiet_setBlocksPresent (t : Torrent) (piece start len : Nat) :
    Quiet t (t.setBlocksPresent piece start len) := by
  have hFold : ∀ (l : List Nat) (table : Pieces), Quiet { t with table }
      { t with table := l.foldl (fun table b => table.setBlockPresent piece b) table } := by
    intro l
    induction l with
    | nil => exact fun table => Quiet.refl _
    | cons b l ih =>
        intro table
        apply Quiet.trans _ (ih _)
        exact (Quiet.refl { t with table }).modPiece (fun _ => rfl) fun _ => rfl
  exact hFold _ t.table

theorem Quiet.table (t : Torrent) {table : Pieces} {f : TorrentPiece → TorrentPiece}
    (hInfo : table.pieceInfo = t.table.pieceInfo.modify p f)
    (hTotal : table.totalPieces = t.table.totalPieces)
    (hBlocks : table.blocksInPiece = t.table.blocksInPiece)
    (hLast : table.blocksInLastPiece = t.table.blocksInLastPiece)
    (hd : ∀ i, (f i).downloader = i.downloader)
    (hc : ∀ i, (f i).downloaderCount = i.downloaderCount) : Quiet t { t with table } := by
  have hPiece : ∀ q, piece { t with table } q = (t.modPiece p f).piece q := by
    intro q
    show table.pieceInfo.getD q .new = (t.table.pieceInfo.modify p f).getD q .new
    rw [hInfo]
  have hFrame := (Quiet.refl t).modPiece (p := p) hd hc
  refine ⟨fun q => ?_, fun q => ?_, fun q => ?_, (Quiet.refl t).keeps⟩
  · rw [hPiece]
    exact hFrame.downloader q
  · rw [hPiece]
    exact hFrame.downloader_count q
  · unfold Pieces.blocksInPieceOf
    rw [hTotal, hBlocks, hLast]

theorem quiet_pieceComplete (t : Torrent) (piece : Nat) : Quiet t (t.pieceComplete piece) := by
  have hOk : Quiet t { t with table := t.table.pieceOk piece } := by
    unfold Pieces.pieceOk Pieces.setBlocksAbsent
    split
    · exact Quiet.refl t
    · exact Quiet.table t rfl rfl rfl rfl (fun _ => rfl) fun _ => rfl
  unfold pieceComplete
  generalize t.table.pieceOk piece = table at hOk ⊢
  apply hOk.trans
  dsimp only
  split
  · exact ⟨fun _ => rfl, fun _ => rfl, fun _ => rfl, (Quiet.refl _).keeps⟩
  · exact Quiet.counts _ _ _ _ _ _ _

theorem quiet_markPieceInvalid (t : Torrent) (i p : Nat) :
    Quiet t (t.markPieceInvalid i p) := by
  unfold markPieceInvalid
  have hCount := (Quiet.refl t).modPeer_same (i := i)
    (f := fun q => { q with invalidPieceCount := q.invalidPieceCount + 1 })
    (fun _ => rfl) fun _ => rfl
  have hHaving := hCount.trans (quiet_setPieceHaving _ i p false false)
  dsimp only
  split
  · exact hHaving
  · exact hHaving.trans (quiet_setAmInterested _ i _)

theorem quiet_pieceCorrupt (t : Torrent) (i piece : Nat) :
    Quiet t (t.pieceCorrupt i piece) := by
  unfold pieceCorrupt
  apply Quiet.trans _ (quiet_markPieceInvalid _ i piece)
  unfold Pieces.pieceBad Pieces.setBlocksAbsent
  split
  · exact Quiet.table t rfl rfl rfl rfl (fun _ => rfl) fun _ => rfl
  · exact Quiet.table t rfl rfl rfl rfl (fun _ => rfl) fun _ => rfl

theorem quiet_blockStored (t : Torrent) (i piece start len : Nat) (valid : Bool) :
    Quiet t (t.blockStored i piece start len valid) := by
  unfold blockStored
  have hPresent := quiet_setBlocksPresent t piece start len
  dsimp only
  split
  · split
    · exact hPresent.trans (quiet_pieceComplete _ piece)
    · exact hPresent.trans (quiet_pieceCorrupt _ i piece)
  · exact hPresent

/-! ## Requests that are taken back -/

/-- A peer may lose requests whose blocks are released. -/
theorem Slots.settle (h : Slots t) (gone : List Request) {f : Peer → Peer}
    (hLive : ∀ q : Peer, (f q).isConnected = q.isConnected)
    (hCover : ∀ q, t.peers.get i = some q →
      ∀ req ∈ q.sentQueue, req ∈ gone ∨ req ∈ (f q).sentQueue) :
    Slots ((gone.foldl (fun t req => t.release i req) t).modPeer i f) := by
  refine ⟨sound_releaseAll gone h.sound, fun p b j hSlot => ?_⟩
  change (gone.foldl (fun t req => t.release i req) t).slot p b = some j at hSlot
  rw [slot_releaseAll_iff] at hSlot
  rcases hSlot with ⟨hSlot, hKept⟩
  rcases h.owned p b j hSlot with ⟨q, hq, hConnected, req, hReq, hIndex, hStart⟩
  by_cases hj : j = i
  · subst hj
    refine ⟨f q, ?_, (hLive q).trans hConnected, req, ?_, hIndex, hStart⟩
    · apply get_modPeer_self
      rw [peers_releaseAll]
      exact hq
    · apply (hCover q hq req hReq).resolve_left
      intro hGone
      apply hKept
      refine ⟨rfl, req, hGone, hIndex, ?_⟩
      rw [hStart]
      exact Nat.mul_div_cancel b (by decide)
  · refine ⟨q, ?_, hConnected, req, hReq, hIndex, hStart⟩
    rw [get_modPeer_ne _ hj, peers_releaseAll]
    exact hq

theorem mem_eraseIdx_or {l : List Request} {k : Nat} {req : Request} (hk : l[k]? = some req)
    {x : Request} (hx : x ∈ l) : x ∈ [req] ∨ x ∈ l.eraseIdx k := by
  rcases List.mem_iff_getElem?.mp hx with ⟨n, hn⟩
  by_cases hSame : n = k
  · subst hSame
    exact .inl (List.mem_singleton.mpr (Option.some.inj (hn.symm.trans hk)))
  · exact .inr (List.mem_eraseIdx_iff_getElem?.mpr ⟨n, hSame, hn⟩)

theorem Slots.clearSentQueue (h : Slots t) (i : Nat) (k : Int) : Slots (t.clearSentQueue i k) := by
  unfold Torrent.clearSentQueue
  cases hq : t.peers.get i with
  | none => exact h
  | some q =>
      dsimp only
      split
      · exact h
      · split
        · apply h.settle
          · exact fun _ => rfl
          · intro q' hq' req hReq
            rw [hq, Option.some.injEq] at hq'
            subst hq'
            rw [← List.take_append_drop (k.toNat + 1) q.sentQueue] at hReq
            exact List.mem_append.mp hReq
        · cases hk : q.sentQueue[k.toNat]? with
          | none => exact h
          | some req =>
              apply h.settle [req]
              · exact fun _ => rfl
              · intro q' hq' x hx
                rw [hq, Option.some.injEq] at hq'
                subst hq'
                exact mem_eraseIdx_or hk hx

theorem Slots.clearSentQueueAll (h : Slots t) (i : Nat) : Slots (t.clearSentQueueAll i) := by
  unfold Torrent.clearSentQueueAll
  split
  · exact h
  · exact h.clearSentQueue i _

theorem findRequest_spec {start k : Nat} (h : q.findRequest p start = some k) :
    ∃ req, q.sentQueue[k]? = some req ∧ req.index = p ∧ req.start = start := by
  unfold Peer.findRequest at h
  rcases List.findIdx?_eq_some_iff_getElem.mp h with ⟨hLt, hReq, -⟩
  refine ⟨q.sentQueue[k], List.getElem?_eq_getElem hLt, ?_⟩
  simpa using hReq

theorem Slots.cancelBlock (h : Slots t) (i p start : Nat) : Slots (t.cancelBlock i p start) := by
  unfold Torrent.cancelBlock
  cases hq : t.peers.get i with
  | none => exact h
  | some q =>
      dsimp only
      split
      · exact h
      · cases hFind : q.findRequest p start with
        | none => exact h
        | some k =>
            rcases findRequest_spec hFind with ⟨req, hReq, rfl, rfl⟩
            apply h.settle [req]
            · exact fun _ => rfl
            · intro q' hq' x hx
              rw [hq, Option.some.injEq] at hq'
              subst hq'
              exact mem_eraseIdx_or hReq hx

theorem Slots.cancelBlocks (h : Slots t) (p start : Nat) : Slots (t.cancelBlocks p start) :=
  foldl_keeps (fun _ j _ hSlots => hSlots.cancelBlock j p start) h

/-! ## The end of a connection -/

/-- What `ClearSentQueue()` takes from the queue. -/
def Peer.dropped (q : Peer) : List Request :=
  if q.fastExtension = false then q.sentQueue else q.sentQueue.getLast?.toList

theorem slot_clearSentQueueAll_iff (hq : t.peers.get i = some q) (p b j : Nat) :
    (t.clearSentQueueAll i).slot p b = some j ↔
      t.slot p b = some j ∧
        ¬(j = i ∧ ∃ req ∈ q.dropped, req.index = p ∧ req.start / blockSize = b) := by
  unfold Torrent.clearSentQueueAll Torrent.clearSentQueue Peer.dropped
  rw [hq]
  dsimp only
  by_cases hEmpty : q.sentQueue = []
  · rw [hEmpty, if_pos (by decide)]
    simp
  · have hPos : 0 < q.sentQueue.length := List.length_pos_iff.mpr hEmpty
    have hLast : ((q.sentQueue.length : Int) - 1).toNat = q.sentQueue.length - 1 := by omega
    rw [if_neg (by omega), hLast, ← List.getLast?_eq_getElem?]
    split
    · rw [Nat.sub_add_cancel hPos, List.take_length]
      exact slot_releaseAll_iff i q.sentQueue t p b j
    · rw [List.getLast?_eq_some_getLast hEmpty]
      exact slot_releaseAll_iff i [q.sentQueue.getLast hEmpty] t p b j

/-- With the fast extension, every block in the name of the peer is that of its
last request. -/
def Torrent.ClearsAll (t : Torrent) (i : Nat) : Prop :=
  ∀ q, t.peers.get i = some q → q.fastExtension = true → ∀ p b, t.slot p b = some i →
    ∃ last, q.sentQueue.getLast? = some last ∧ last.index = p ∧ last.start / blockSize = b

theorem slot_disconnect (t : Torrent) (i p b : Nat) :
    (t.disconnect i).slot p b = (t.clearSentQueueAll i).slot p b := by
  rw [← (quiet_dropBitfield (t.clearSentQueueAll i) i).slot]
  unfold disconnect close
  split <;> rfl

theorem slot_of_disconnect (h : (t.disconnect i).slot p b = some j) : t.slot p b = some j := by
  rw [slot_disconnect] at h
  cases hq : t.peers.get i with
  | none =>
      unfold Torrent.clearSentQueueAll at h
      rw [hq] at h
      exact h
  | some q => exact ((slot_clearSentQueueAll_iff hq p b j).mp h).1

theorem Slots.idle_of_none (h : Slots t) (hNone : t.peers.get i = none) : t.Idle i := by
  intro p b hSlot
  rcases h.owned p b i hSlot with ⟨q, hq, -⟩
  exact absurd (hNone.symm.trans hq) nofun

theorem Torrent.Idle.clearsAll (h : t.Idle i) : t.ClearsAll i :=
  fun _ _ _ p b hSlot => absurd hSlot (h p b)

/-- No block is left in the name of the peer exactly when the last request says
it all. -/
theorem idle_disconnect_iff (h : Slots t) : (t.disconnect i).Idle i ↔ t.ClearsAll i := by
  cases hq : t.peers.get i with
  | none =>
      have hIdle := h.idle_of_none hq
      refine iff_of_true (fun p b hSlot => hIdle p b (slot_of_disconnect hSlot)) hIdle.clearsAll
  | some q =>
      unfold Idle ClearsAll
      simp only [slot_disconnect, ne_eq, slot_clearSentQueueAll_iff hq, not_and, not_not, true_and]
      unfold Peer.dropped
      cases hFast : q.fastExtension with
      | true =>
          refine ⟨fun hAll q' hq' _ p b hSlot => ?_, fun hAll p b hSlot => ?_⟩
          · rw [hq, Option.some.injEq] at hq'
            subst hq'
            rcases hAll p b hSlot with ⟨last, hLast, hBlock⟩
            rw [if_neg (by rintro ⟨⟩), Option.mem_toList] at hLast
            exact ⟨last, hLast, hBlock⟩
          · rcases hAll q hq hFast p b hSlot with ⟨last, hLast, hBlock⟩
            refine ⟨last, ?_, hBlock⟩
            rw [if_neg (by rintro ⟨⟩), Option.mem_toList]
            exact hLast
      | false =>
          refine iff_of_true (fun p b hSlot => ?_) fun q' hq' hTrue => ?_
          · rcases h.owned p b i hSlot with ⟨q', hq', -, req, hReq, hIndex, hStart⟩
            rw [hq, Option.some.injEq] at hq'
            subst hq'
            refine ⟨req, ?_, hIndex, ?_⟩
            · rw [if_pos rfl]
              exact hReq
            · rw [hStart]
              exact Nat.mul_div_cancel b (by decide)
          · rw [hq, Option.some.injEq] at hq'
            subst hq'
            rw [hFast] at hTrue
            exact absurd hTrue Bool.false_ne_true

theorem Slots.disconnect (h : Slots t) (hClears : t.ClearsAll i) : Slots (t.disconnect i) := by
  have hIdle := (idle_disconnect_iff h).mpr hClears
  have hDropped := (h.clearSentQueueAll i).quiet (quiet_dropBitfield _ i)
  have hSlot : ∀ p b, ((t.clearSentQueueAll i).dropBitfield i).slot p b ≠ some i := by
    intro p b
    rw [(quiet_dropBitfield _ i).slot, ← slot_disconnect]
    exact hIdle p b
  unfold Torrent.disconnect close
  split
  · exact hDropped
  · apply Slots.modPeer_idle
    · exact hDropped.quiet (Quiet.counts _ _ _ _ _ _ _)
    · exact hSlot

theorem idle_disconnect (h : t.Idle j) (i : Nat) : (t.disconnect i).Idle j :=
  fun p b hSlot => h p b (slot_of_disconnect hSlot)

theorem Slots.setError (h : Slots t) (hClears : t.ClearsAll i) (msg : Bytes) :
    Slots (t.setError i msg) := by
  unfold Torrent.setError
  apply Slots.disconnect
  · exact h.quiet ((Quiet.refl t).modPeer_same (fun _ => rfl) fun _ => rfl)
  · intro q' hq' hFast p b hSlot
    cases hq : t.peers.get i with
    | none => exact absurd hSlot (h.idle_of_none hq p b)
    | some q =>
        rw [get_modPeer_self hq, Option.some.injEq] at hq'
        subst hq'
        exact hClears q hq hFast p b hSlot

theorem Slots.remove (h : Slots t) (hClears : t.ClearsAll i) : Slots (t.remove i) := by
  have hSlots := h.disconnect hClears
  have hIdle := (idle_disconnect_iff h).mpr hClears
  refine ⟨hSlots.sound, fun p b j hSlot => ?_⟩
  rcases hSlots.owned p b j hSlot with ⟨q, hq, hLive⟩
  have hj : j ≠ i := fun hEq => hIdle p b (hEq ▸ hSlot)
  refine ⟨q, ?_, hLive⟩
  show ((t.disconnect i).peers.erase i).get j = some q
  rw [Table.get_erase, if_neg hj]
  exact hq

/-! ## Sending requests -/

/-- The promise is kept and the peer is connected. -/
def Going (t : Torrent) (i : Nat) : Prop := Slots t ∧ t.Live i

theorem Going.quiet (h : Going t i) (hQuiet : Quiet t t') : Going t' i :=
  ⟨h.1.quiet hQuiet, hQuiet.live h.2⟩

/-- The request is in the queue when the slot is taken. -/
theorem Going.requestBlock (h : Going t i) (hb : b < t.table.blocksInPieceOf p) (len : Nat) :
    Going (t.requestBlock i p b len) i := by
  apply Going.quiet _ (quiet_setLastPiece _ i p)
  have hPush : Quiet t (t.modPeer i fun q =>
      { q with sentQueue := q.sentQueue ++ [⟨p, b * blockSize, len⟩] }) := by
    apply (Quiet.refl t).modPeer
    exact fun q hLive => ⟨hLive, List.subset_append_left _ _⟩
  rcases h.2 with ⟨q, hq, hLive⟩
  have hAsked := get_modPeer_self hq fun q =>
    { q with sentQueue := q.sentQueue ++ [⟨p, b * blockSize, len⟩] }
  constructor
  · apply (h.1.quiet hPush).take _ hb
    exact ⟨_, hAsked, hLive, _, List.mem_append_right _ List.mem_cons_self, rfl, rfl⟩
  · exact ⟨_, hAsked, hLive⟩

theorem going_keptByRequests (i : Nat) : KeptByRequests (fun t => Going t i) i where
  request _ _ _ len h hb := h.requestBlock hb len
  fastSet t _ h := h.quiet ((Quiet.refl t).modPeer_same (fun _ => rfl) fun _ => rfl)
  suggestedSet t _ h := h.quiet ((Quiet.refl t).modPeer_same (fun _ => rfl) fun _ => rfl)
  interest t h := h.quiet (quiet_setAmInterested t i false)

/-! ## Events -/

theorem Slots.accept (h : Slots t) (i : Nat) (q : Peer) (relaxed : Bool) (stray : UInt8)
    (pkt : Packet) : Slots (t.accept i q relaxed stray pkt) := by
  have hMember : ∀ {f : Peer → Peer}, (∀ q : Peer, (f q).isConnected = q.isConnected) →
      (∀ q : Peer, (f q).sentQueue = q.sentQueue) → Slots (t.modPeer i f) :=
    fun hLive hQueue => h.quiet ((Quiet.refl t).modPeer_same hLive hQueue)
  unfold Torrent.accept
  cases pkt with
  | choke =>
      apply Slots.clearSentQueueAll
      exact hMember (fun _ => rfl) fun _ => rfl
  | unchoke => exact hMember (fun _ => rfl) fun _ => rfl
  | interested => exact hMember (fun _ => rfl) fun _ => rfl
  | uninterested => exact hMember (fun _ => rfl) fun _ => rfl
  | «have» piece => exact h.quiet (quiet_setPieceHaving t i _ true relaxed)
  | bitfield bf => exact h.quiet (quiet_setPiecesHaving t i _ relaxed)
  | haveAll => exact h.quiet (quiet_setPiecesHaving t i _ relaxed)
  | haveNone => exact h.quiet (quiet_setPiecesHaving t i _ relaxed)
  | suggestPiece piece => exact hMember (fun _ => rfl) fun _ => rfl
  | allowedFast piece => exact hMember (fun _ => rfl) fun _ => rfl
  | rejectRequest index start len =>
      dsimp only
      split
      · exact h
      · exact h.clearSentQueue i _
  | piece index start data =>
      dsimp only
      split
      · exact h
      · exact (h.clearSentQueue i _).cancelBlocks _ _
  | request index start len => exact hMember (fun _ => rfl) fun _ => rfl
  | cancel index start len => exact hMember (fun _ => rfl) fun _ => rfl
  | _ => exact h

/-- A peer that has not sent its handshake has no blocks. -/
theorem Slots.handshake (h : Slots t) (i : Nat) (extensions id me : Bytes) (known : Bool) :
    Slots (t.handshake i extensions id me known) := by
  unfold Torrent.handshake
  cases hq : t.peers.get i with
  | none => exact h
  | some q =>
      dsimp only
      split
      · exact h
      · next hFirst =>
        have hIdle : t.Idle i := by
          intro p b hSlot
          rcases h.owned p b i hSlot with ⟨q', hq', hLive, -⟩
          rw [hq, Option.some.injEq] at hq'
          subst hq'
          unfold Peer.isConnected at hLive
          simp only [Bool.and_eq_true] at hLive
          exact hFirst (.inr (.inr (.inr hLive.1.1)))
        have hMember : ∀ {t : Torrent}, Slots t → t.Idle i → ∀ f, Slots (t.modPeer i f) :=
          fun hSlots hIdle f => hSlots.modPeer_idle hIdle f
        have hExt := hMember h hIdle fun q => { q with extensions }
        have hExtIdle : (t.modPeer i fun q => { q with extensions }).Idle i := hIdle
        generalize (t.modPeer i fun q => { q with extensions }) = t₁ at hExt hExtIdle ⊢
        split
        · apply Slots.disconnect
          · exact hExt.setError hExtIdle.clearsAll _
          · exact (idle_disconnect (t := t₁.modPeer i _) hExtIdle i).clearsAll
        · have hId := hMember hExt hExtIdle fun q => { q with peerId := some id }
          have hIdIdle : (t₁.modPeer i fun q => { q with peerId := some id }).Idle i := hExtIdle
          generalize (t₁.modPeer i fun q => { q with peerId := some id }) = t₂ at hId hIdIdle ⊢
          split
          · exact hId.disconnect hIdIdle.clearsAll
          · split
            · exact hMember hId hIdIdle _
            · split
              · exact hMember hId hIdIdle _
              · exact hId

/-- A table of a new size has no slots. -/
theorem Slots.startup (h : Slots t) (pieceLength totalLength : Nat) :
    Slots (t.startup pieceLength totalLength) := by
  unfold Torrent.startup
  split
  · exact h
  · have hPiece : ∀ p, piece { t with
        hasMetadata := true
        table := Pieces.setTotalLength { t.table with pieceLength } totalLength } p = .new := by
      intro p
      exact List.getElem?_getD_replicate_default_eq TorrentPiece.new _ p
    have hFresh : ∀ i, Idle { t with
        hasMetadata := true
        table := Pieces.setTotalLength { t.table with pieceLength } totalLength } i := by
      intro i p b hSlot
      unfold slot at hSlot
      rw [hPiece] at hSlot
      exact absurd hSlot nofun
    have hSlots : Slots { t with
        hasMetadata := true
        table := Pieces.setTotalLength { t.table with pieceLength } totalLength } := by
      refine ⟨fun p => ?_, fun p b i hSlot => absurd hSlot (hFresh i p b)⟩
      rw [hPiece]
      exact TorrentPiece.sound_new _
    have hKeep : ∀ (t : Torrent) (i : Nat), (Slots t ∧ ∀ j, t.Idle j) →
        Slots (if (t.peers.get i).any fun q => q.isConnected then t.disconnect i else t) ∧
          ∀ j, Idle (if (t.peers.get i).any fun q => q.isConnected then t.disconnect i else t) j := by
      intro t i hBoth
      split
      · exact ⟨hBoth.1.disconnect (hBoth.2 i).clearsAll, fun j => idle_disconnect (hBoth.2 j) i⟩
      · exact hBoth
    exact (foldl_keeps (fun t i _ => hKeep t i) ⟨hSlots, hFresh⟩).1

/-- `cleanup` only frees an array that names nobody. -/
theorem Slots.cleanup (h : Slots t) (p : Nat) : Slots (t.modPiece p TorrentPiece.cleanup) := by
  refine ⟨fun p' => ?_, fun p' b i hSlot => h.owned p' b i ?_⟩
  · show ((t.modPiece p _).piece p').Sound (t.table.blocksInPieceOf p')
    rw [piece_modPiece]
    split
    · exact (h.sound p').cleanup
    · exact h.sound p'
  · unfold slot at hSlot ⊢
    rw [piece_modPiece] at hSlot
    split at hSlot
    · unfold TorrentPiece.cleanup at hSlot
      split at hSlot
      · exact absurd hSlot nofun
      · exact hSlot
    · exact hSlot

theorem Slots.rebuildPiecesNeeded (h : Slots t) : Slots t.rebuildPiecesNeeded := by
  unfold Torrent.rebuildPiecesNeeded
  apply Slots.quiet _ (Quiet.counts _ _ _ _ _ _ _)
  exact foldl_keeps (fun _ p _ hSlots => hSlots.cleanup p) h

theorem Slots.insert (h : Slots t) (i : Nat) (q : Peer) :
    Slots { t with peers := t.peers.insert i q } := by
  apply h.quiet
  refine ⟨fun _ => rfl, fun _ => rfl, fun _ => rfl, fun j q' hq' hLive => ?_⟩
  exact ⟨q', Table.get_insert_of_some hq' i q, hLive, List.Subset.refl _⟩

/-- The packet makes `HandlePacket` call `SetError`. -/
def Torrent.Rejects (t : Torrent) (i : Nat) (pkt : Packet) : Prop :=
  ∃ q msg, t.peers.get i = some q ∧ q.isConnected = true ∧ q.error = none ∧ q.myself = false ∧
    t.check q pkt = .error msg

theorem Slots.handlePacket (h : Slots t) {pkt : Packet} (hOk : t.Rejects i pkt → t.ClearsAll i)
    (relaxed : Bool) (stray : UInt8) : Slots (t.handlePacket i relaxed stray pkt) := by
  unfold Torrent.handlePacket
  cases hq : t.peers.get i with
  | none => exact h
  | some q =>
      dsimp only
      split
      · exact h
      · next hReady =>
        simp only [not_or, Bool.not_eq_false, Bool.not_eq_true, Option.isSome_eq_false_iff,
          Option.isNone_iff_eq_none] at hReady
        cases hCheck : t.check q pkt with
        | ignore => exact h
        | error msg => exact h.setError (hOk ⟨q, msg, hq, hReady.1, hReady.2.1, hReady.2.2, hCheck⟩) msg
        | accept => exact h.accept i q relaxed stray pkt

/-- A peer that the event disconnects holds no block but that of its last
request. `RestartPeers` and the handshake disconnect peers that hold none. -/
def Event.ClearsAll (t : Torrent) : Event → Prop
  | disconnect i | fail i _ | remove i => t.ClearsAll i
  | packet i _ _ pkt => t.Rejects i pkt → t.ClearsAll i
  | _ => True

theorem slots_new : Slots .new := by
  have hPiece : ∀ p, piece .new p = .new := fun _ => rfl
  refine ⟨fun p => ?_, fun p b i hSlot => ?_⟩
  · rw [hPiece]
    exact TorrentPiece.sound_new _
  · unfold slot at hSlot
    rw [hPiece] at hSlot
    exact absurd hSlot nofun

theorem Slots.ifConnected (h : Slots t) (i : Nat) {f : Torrent → Torrent}
    (hf : Going t i → Slots (f t)) : Slots (t.ifConnected i f) := by
  unfold Torrent.ifConnected
  split
  · next hLive =>
    rcases Option.any_eq_true_iff_get _ _ |>.mp hLive with ⟨hSome, hConnected⟩
    exact hf ⟨h, _, (Option.some_get hSome).symm, hConnected⟩
  · exact h

/-- One event keeps the promise of the slots. -/
theorem Slots.act (h : Slots t) {e : Event} (hOk : e.ClearsAll t) : Slots (e.act t) := by
  cases e with
  | add i => exact h.insert i .new
  | accept i => exact h.insert i .accepted
  | establish i => exact h.quiet (quiet_establish t i)
  | handshake i extensions id me known => exact h.handshake i extensions id me known
  | packet i relaxed stray pkt => exact h.handlePacket hOk relaxed stray
  | sendDataRequests i d =>
      apply h.ifConnected
      exact fun hGoing => ((going_keptByRequests i).sendDataRequests hGoing d).1
  | requestPiece i p allowed =>
      apply h.ifConnected
      exact fun hGoing => ((going_keptByRequests i).sendPieceRequests hGoing p allowed).1
  | blockStored i piece start len valid =>
      show Slots (if piece < t.table.totalPieces then t.blockStored i piece start len valid else t)
      split
      · exact h.quiet (quiet_blockStored t i piece start len valid)
      · exact h
  | setAmInterested i interest =>
      apply h.ifConnected
      exact fun hGoing => (hGoing.quiet (quiet_setAmInterested t i interest)).1
  | setAmChoking i c =>
      apply h.ifConnected
      exact fun hGoing => (hGoing.quiet (quiet_setAmChoking t i c)).1
  | rebuildPiecesNeeded => exact h.rebuildPiecesNeeded
  | startup pieceLength totalLength => exact h.startup pieceLength totalLength
  | disconnect i => exact h.disconnect hOk
  | fail i msg => exact h.setError hOk msg
  | remove i => exact h.remove hOk

theorem slots_of_reach (h : Reach Started (Step Event.ClearsAll) t) : Slots t := by
  apply h.invariant (I := Slots)
  · intro t hStart
    exact hStart ▸ slots_new
  · intro t e t' hSlots hStep
    exact hStep.2 ▸ hSlots.act hStep.1

/-- In a run that disconnects peers of the fast extension only when their last
request says it all, a peer named in a slot is connected and has a request for
exactly that block in its queue, `downloader_count` is the number of taken slots,
and a disconnected peer is named nowhere exactly when that condition holds of it. -/
theorem downloaders_exact (h : Reach Started (Step Event.ClearsAll) t) :
    (∀ p b i, t.slot p b = some i → ∃ q, t.peers.get i = some q ∧ q.isConnected = true ∧
      ∃ req ∈ q.sentQueue, req.index = p ∧ req.start = b * blockSize) ∧
    (∀ p, (t.piece p).downloaderCount = ((t.piece p).slots.countP Option.isSome : Nat)) ∧
    ∀ i, (∀ p b, (t.disconnect i).slot p b ≠ some i) ↔ t.ClearsAll i := by
  have hSlots := slots_of_reach h
  refine ⟨hSlots.owned, fun p => (hSlots.sound p).count, fun i => ?_⟩
  exact idle_disconnect_iff hSlots

/-- A peer with the fast extension has the only piece, of two blocks, and is
asked for both. -/
def bothAsked : List Event :=
  [.startup (2 * blockSize) (2 * blockSize), .add 1, .establish 1,
    .handshake 1 [0, 0, 0, 0, 0, 0, 0, 4] (bytes "peer") (bytes "self") true,
    .packet 1 true 0 .unchoke, .packet 1 true 0 (.have 0),
    .sendDataRequests 1 ⟨true, fun _ => 2 * blockSize, fun _ => false, false⟩]

/-- No event of `bothAsked` disconnects a peer, but the next one may. -/
theorem downloaders_exact_bothAsked :
    ((bothAsked.foldl Event.act .new).slot 0 0 = some 1 ∧
      (bothAsked.foldl Event.act .new).slot 0 1 = some 1) ∧
    ((∀ p b i, (bothAsked.foldl Event.act .new).slot p b = some i →
        ∃ q, (bothAsked.foldl Event.act .new).peers.get i = some q ∧ q.isConnected = true ∧
          ∃ req ∈ q.sentQueue, req.index = p ∧ req.start = b * blockSize) ∧
      (∀ p, ((bothAsked.foldl Event.act .new).piece p).downloaderCount =
        (((bothAsked.foldl Event.act .new).piece p).slots.countP Option.isSome : Nat)) ∧
      ∀ i, (∀ p b, ((bothAsked.foldl Event.act .new).disconnect i).slot p b ≠ some i) ↔
        (bothAsked.foldl Event.act .new).ClearsAll i) := by
  have hStart : Reach Started (Step Event.ClearsAll) .new := .start rfl
  refine ⟨⟨by decide, by decide⟩, downloaders_exact (hStart.foldl bothAsked ?_)⟩
  have hAccept : ∀ {t : Torrent} {i : Nat} {pkt : Packet},
      (∀ q, t.check q pkt = .accept) → t.Rejects i pkt → t.ClearsAll i := by
    rintro t i pkt hCheck ⟨q, msg, -, -, -, -, hError⟩
    rw [hCheck] at hError
    exact absurd hError nofun
  exact ⟨trivial, trivial, trivial, trivial, hAccept fun _ => rfl, hAccept fun _ => rfl, trivial,
    trivial⟩

/-- The peer goes away with two requests in its queue, and the first block stays
in its name. -/
theorem not_downloaders_exact :
    ¬ ∀ t, Reach Started (Step fun _ _ => True) t →
      (∀ p b i, t.slot p b = some i → ∃ q, t.peers.get i = some q ∧ q.isConnected = true ∧
        ∃ req ∈ q.sentQueue, req.index = p ∧ req.start = b * blockSize) ∧
      (∀ p, (t.piece p).downloaderCount = ((t.piece p).slots.countP Option.isSome : Nat)) ∧
      ∀ i p b, (t.disconnect i).slot p b ≠ some i := by
  intro hAll
  have hStart : Reach Started (Step fun _ _ => True) .new := .start rfl
  have hReach : Reach Started (Step fun _ _ => True) (bothAsked.foldl Event.act .new) := by
    apply hStart.foldl
    exact ⟨trivial, trivial, trivial, trivial, trivial, trivial, trivial, trivial⟩
  have hSlot : ((bothAsked.foldl Event.act .new).disconnect 1).slot 0 0 = some 1 := by decide
  exact (hAll _ hReach).2.2 1 0 0 hSlot

end Lftp.Ports.TorrentPeers
