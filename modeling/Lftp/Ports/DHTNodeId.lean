import Lftp.Ports.DHTState

/-!
# Node ids that belong to an address

`MakeNodeId` makes the first bytes of a node id from the address of the node, and `ValidNodeId`
checks them. They are given the address in the compact form, without a port or with one.

Both choose their mask by the length of that form. `BelongsToAddress` is what they should do
for both forms; for an address of IPv4 with a port the mask is the one for IPv6, which is longer
than the string (`belongsToAddress_iff`).
-/

namespace Lftp.Ports.DHT

open Lftp.Verified

/-- `SHA1_DIGEST_SIZE` bytes. -/
structure Digest where
  bytes : Bytes
  length_bytes : bytes.length = 20

/-! ## The compact form -/

namespace SockAddr

/-- The compact form with the port, as it is on the wire. -/
def withPort (a : SockAddr) : Bytes :=
  a.addr ++ [UInt8.ofNat (a.port / 256), UInt8.ofNat (a.port % 256)]

theorem length_withPort (a : SockAddr) : a.withPort.length = a.family.length + 2 := by
  unfold withPort
  rw [List.length_append, a.length_addr]
  rfl

/-- The address alone comes back without the port. -/
theorem setCompact_addr (a : SockAddr) :
    ∃ b, setCompact a.addr = some b ∧ b.family = a.family ∧ b.addr = a.addr := by
  have hLen := a.length_addr
  cases hFamily : a.family
  · rw [hFamily] at hLen
    exact ⟨_, dif_pos hLen, rfl, rfl⟩
  · rw [hFamily] at hLen
    have hNot : a.addr.length ≠ 4 := by rw [hLen]; decide
    exact ⟨_, (dif_neg hNot).trans (dif_pos hLen), rfl, rfl⟩

/-- Loopback and private addresses need no check. -/
def exempt (a : SockAddr) : Bool := a.isLoopback || a.isPrivate

theorem exempt_congr {a b : SockAddr} (hFamily : b.family = a.family) (hAddr : b.addr = a.addr) :
    b.exempt = a.exempt := by
  unfold exempt isLoopback isPrivate zeros byte
  rw [hFamily, hAddr]

end SockAddr

/-! ## `MakeNodeId` and `ValidNodeId` -/

def v4mask : Bytes := [0x01, 0x07, 0x1f, 0x7f]

def v6mask : Bytes := [0x00, 0x01, 0x03, 0x07, 0x0f, 0x1f, 0x3f, 0x7f]

/-- The mask for the compact form `ip`. -/
def maskFor (ip : Bytes) : Bytes := if ip.length = 4 then v4mask else v6mask

/-- `ip[i]`, also where it is past the end; `past` is the memory there. -/
def byteAt (past : Nat → UInt8) (ip : Bytes) (i : Nat) : UInt8 := ip.getD i (past i)

/-- What is hashed; `r` is the low byte of the number. -/
def seed (past : Nat → UInt8) (ip : Bytes) (r : UInt8) : Bytes :=
  (maskFor ip).mapIdx (fun i m => byteAt past ip i &&& m) ++ [r &&& 7]

variable (sha1 : Bytes → Digest)

/-- `MakeNodeId`; `random` are the bytes that are drawn. -/
def makeNodeId (random : Nat → UInt8) (past : Nat → UInt8) (ip : Bytes) (r : UInt8) : Bytes :=
  (sha1 (seed past ip r)).bytes.take 4 ++ (List.range 15).map random ++ [r]

/-- `ValidNodeId` -/
def validNodeId (random : Nat → UInt8) (past : Nat → UInt8) (id ip : Bytes) : Bool :=
  if id.length ≠ 20 then false
  else
    match setCompact ip with
    | none => false
    | some addr =>
        if addr.isLoopback || addr.isPrivate then true
        else id.take 4 = (makeNodeId sha1 random past ip (id.getD 19 0)).take 4

/-- The indexes of `ip` that `ValidNodeId` reads. -/
def validReads (id ip : Bytes) : List Nat :=
  if id.length ≠ 20 then []
  else
    match setCompact ip with
    | none => []
    | some addr =>
        List.range ip.length ++
          if addr.isLoopback || addr.isPrivate then [] else List.range (maskFor ip).length

/-- A compact form of the address. -/
def Form (a : SockAddr) (ip : Bytes) : Prop := ip = a.addr ∨ ip = a.withPort

/-- What the check of an id should be for an address, with and without the port. -/
structure BelongsToAddress (a : SockAddr) : Prop where
  same : ∀ random past id,
    validNodeId sha1 random past id a.withPort = validNodeId sha1 random past id a.addr
  inside : ∀ id ip, Form a ip → ∀ i ∈ validReads id ip, i < ip.length
  accepted : ∀ ip, Form a ip → ∀ random random' past past' r,
    validNodeId sha1 random' past' (makeNodeId sha1 random past ip r) ip = true

/-! ## What is right -/

variable {sha1} {random past : Nat → UInt8} {id ip : Bytes} {a : SockAddr}

theorem Form.setCompact (h : Form a ip) :
    ∃ b, DHT.setCompact ip = some b ∧ b.exempt = a.exempt := by
  rcases h with h | h
  · rcases a.setCompact_addr with ⟨b, hb, hFamily, hAddr⟩
    rw [h]
    exact ⟨b, hb, SockAddr.exempt_congr hFamily hAddr⟩
  · rw [h]
    exact ⟨a, setCompact_port a, rfl⟩

theorem validNodeId_form (h : Form a ip) (hLen : id.length = 20) :
    validNodeId sha1 random past id ip = (a.exempt ||
      decide (id.take 4 = (makeNodeId sha1 random past ip (id.getD 19 0)).take 4)) := by
  rcases h.setCompact with ⟨b, hb, hExempt⟩
  unfold validNodeId
  rw [if_neg (not_not.mpr hLen), hb, ← hExempt]
  show (if b.exempt = true then true else _) = _
  cases b.exempt
  · simp
  · simp

theorem length_makeNodeId (r : UInt8) : (makeNodeId sha1 random past ip r).length = 20 := by
  have hLen := (sha1 (seed past ip r)).length_bytes
  unfold makeNodeId
  simp [hLen]

theorem take_makeNodeId (r : UInt8) :
    (makeNodeId sha1 random past ip r).take 4 = (sha1 (seed past ip r)).bytes.take 4 := by
  have hLen : ((sha1 (seed past ip r)).bytes.take 4).length = 4 := by
    rw [List.length_take, (sha1 (seed past ip r)).length_bytes]
    rfl
  unfold makeNodeId
  rw [List.append_assoc]
  exact List.take_left' hLen

/-- The number is kept in the last byte. -/
theorem getD_makeNodeId (r : UInt8) : (makeNodeId sha1 random past ip r).getD 19 0 = r := by
  have hLen : ((sha1 (seed past ip r)).bytes.take 4 ++ (List.range 15).map random).length = 19 := by
    rw [List.length_append, List.length_take, (sha1 (seed past ip r)).length_bytes,
      List.length_map, List.length_range]
    rfl
  unfold makeNodeId
  rw [List.getD_append_right _ _ _ _ (le_of_eq hLen), hLen]
  rfl

/-- Two forms of which the same bytes are read make the same ids. -/
theorem seed_congr {past' : Nat → UInt8} {ip' : Bytes} (hMask : maskFor ip = maskFor ip')
    (h : ∀ i, i < (maskFor ip).length → byteAt past ip i = byteAt past' ip' i) (r : UInt8) :
    seed past ip r = seed past' ip' r := by
  unfold seed
  rw [← hMask]
  congr 1
  apply List.ext_getElem
  · rw [List.length_mapIdx, List.length_mapIdx]
  · intro i hi _
    rw [List.length_mapIdx] at hi
    rw [List.getElem_mapIdx, List.getElem_mapIdx, h i hi]

theorem byteAt_of_lt {i : Nat} (h : i < ip.length) (past' : Nat → UInt8) :
    byteAt past ip i = byteAt past' ip i := by
  unfold byteAt
  rw [List.getD_eq_getElem _ _ h, List.getD_eq_getElem _ _ h]

/-- The mask is no longer than the form. -/
def Covered (ip : Bytes) : Prop := (maskFor ip).length ≤ ip.length

theorem Covered.seed_eq (h : Covered ip) (past' : Nat → UInt8) (r : UInt8) :
    seed past ip r = seed past' ip r :=
  seed_congr rfl (fun _ hi => byteAt_of_lt (lt_of_lt_of_le hi h) past') r

theorem covered_addr (a : SockAddr) : Covered a.addr := by
  have hLen := a.length_addr
  unfold Covered maskFor
  rw [hLen]
  cases a.family <;> decide

theorem covered_withPort (h : a.family = .inet6) : Covered a.withPort := by
  have hLen := a.length_withPort
  unfold Covered maskFor
  rw [hLen, h]
  decide

/-- For IPv6 the port is not read. -/
theorem seed_withPort (h : a.family = .inet6) (r : UInt8) :
    seed past a.withPort r = seed past a.addr r := by
  have hLen := a.length_addr
  have hPort := a.length_withPort
  rw [h] at hLen hPort
  have hMask : maskFor a.withPort = maskFor a.addr := by
    unfold maskFor
    rw [hLen, hPort]
    rfl
  apply seed_congr hMask
  intro i hi
  have hLt : i < a.addr.length := by
    rw [hMask] at hi
    exact lt_of_lt_of_le hi (covered_addr a)
  unfold byteAt SockAddr.withPort
  rw [List.getD_append _ _ _ _ hLt, List.getD_eq_getElem _ _ hLt]

/-- An id is accepted for the form it was made for. -/
theorem makeNodeId_accepted (h : Form a ip) (hCovered : a.exempt = true ∨ Covered ip)
    (random random' past past' : Nat → UInt8) (r : UInt8) :
    validNodeId sha1 random' past' (makeNodeId sha1 random past ip r) ip = true := by
  rw [validNodeId_form h (length_makeNodeId r), Bool.or_eq_true, decide_eq_true_eq]
  rcases hCovered with hExempt | hCovered
  · exact .inl hExempt
  · right
    rw [take_makeNodeId, getD_makeNodeId, take_makeNodeId, hCovered.seed_eq past']

theorem inside_of_covered (h : Form a ip) (hCovered : a.exempt = true ∨ Covered ip) {i : Nat}
    (hi : i ∈ validReads id ip) : i < ip.length := by
  rcases h.setCompact with ⟨b, hb, hExempt⟩
  unfold validReads at hi
  rw [hb] at hi
  split at hi
  · exact absurd hi List.not_mem_nil
  · dsimp only at hi
    change i ∈ _ ++ (if b.exempt = true then _ else _) at hi
    rw [hExempt] at hi
    rcases List.mem_append.mp hi with hi | hi
    · exact List.mem_range.mp hi
    · rcases hCovered with hTrue | hCovered
      · rw [if_pos hTrue] at hi
        exact absurd hi List.not_mem_nil
      · split at hi
        · exact absurd hi List.not_mem_nil
        · exact lt_of_lt_of_le (List.mem_range.mp hi) hCovered

theorem validNodeId_withPort (h : a.exempt = true ∨ a.family = .inet6) :
    validNodeId sha1 random past id a.withPort = validNodeId sha1 random past id a.addr := by
  by_cases hLen : id.length = 20
  · rw [validNodeId_form (.inr rfl) hLen, validNodeId_form (.inl rfl) hLen]
    rcases h with hExempt | hFamily
    · rw [hExempt, Bool.true_or, Bool.true_or]
    · rw [take_makeNodeId, take_makeNodeId, seed_withPort hFamily]
  · unfold validNodeId
    rw [if_pos hLen, if_pos hLen]

/-- The check reads past an address of IPv4 with its port. -/
theorem six_mem_validReads (hFamily : a.family = .inet) (hExempt : a.exempt = false)
    (hLen : id.length = 20) : 6 ∈ validReads id a.withPort := by
  have hSix := a.length_withPort
  rw [hFamily] at hSix
  unfold validReads maskFor
  rw [if_neg (not_not.mpr hLen), show setCompact a.withPort = some a from setCompact_port a]
  show 6 ∈ _ ++ (if a.exempt = true then [] else _)
  rw [hExempt, hSix]
  decide

theorem belongsToAddress_iff (a : SockAddr) :
    BelongsToAddress sha1 a ↔ a.family = .inet6 ∨ a.isLoopback = true ∨ a.isPrivate = true := by
  have hExempt : a.exempt = true ↔ a.isLoopback = true ∨ a.isPrivate = true := Bool.or_eq_true_iff
  rw [← hExempt]
  constructor
  · intro h
    cases hFamily : a.family
    · right
      by_contra hNot
      have hSix := six_mem_validReads hFamily (Bool.eq_false_iff.mpr hNot)
        (List.length_replicate (n := 20) (a := (0 : UInt8)))
      have hLt := h.inside _ _ (.inr rfl) 6 hSix
      rw [a.length_withPort, hFamily] at hLt
      exact absurd hLt (by decide)
    · exact .inl rfl
  · intro h
    have hCovered : ∀ ip, Form a ip → a.exempt = true ∨ Covered ip := by
      intro ip hForm
      rcases h with hFamily | hTrue
      · right
        rcases hForm with hForm | hForm
        · rw [hForm]
          exact covered_addr a
        · rw [hForm]
          exact covered_withPort hFamily
      · exact .inl hTrue
    constructor
    · exact fun _ _ _ => validNodeId_withPort h.symm
    · exact fun _ ip hForm _ hi => inside_of_covered hForm (hCovered ip hForm) hi
    · exact fun ip hForm => makeNodeId_accepted hForm (hCovered ip hForm)

/-- A digest that can be seen through. -/
def padded (b : Bytes) : Digest :=
  ⟨(b ++ List.replicate 20 0).take 20, by
    rw [List.length_take, List.length_append, List.length_replicate]
    omega⟩

def somePeer : SockAddr := ⟨.inet, [8, 8, 8, 8], 80, rfl, by decide⟩

/-- The id made for an address is not accepted for it with its port, and bytes are read that are
not there. -/
theorem somePeer_not_belongs :
    validNodeId padded (fun _ => 0) (fun _ => 0)
        (makeNodeId padded (fun _ => 0) (fun _ => 0) somePeer.addr 1) somePeer.addr = true ∧
      validNodeId padded (fun _ => 0) (fun _ => 0)
        (makeNodeId padded (fun _ => 0) (fun _ => 0) somePeer.addr 1) somePeer.withPort = false ∧
      somePeer.withPort.length = 6 ∧
      7 ∈ validReads (makeNodeId padded (fun _ => 0) (fun _ => 0) somePeer.addr 1)
        somePeer.withPort ∧
      ¬ BelongsToAddress padded somePeer := by
  have hAddr : validNodeId padded (fun _ => 0) (fun _ => 0)
      (makeNodeId padded (fun _ => 0) (fun _ => 0) somePeer.addr 1) somePeer.addr = true := by
    decide
  have hPort : validNodeId padded (fun _ => 0) (fun _ => 0)
      (makeNodeId padded (fun _ => 0) (fun _ => 0) somePeer.addr 1) somePeer.withPort = false := by
    decide
  constructor
  · exact hAddr
  · constructor
    · exact hPort
    · constructor
      · rfl
      · constructor
        · decide
        · intro h
          rw [h.same, hAddr] at hPort
          exact Bool.noConfusion hPort

end Lftp.Ports.DHT
