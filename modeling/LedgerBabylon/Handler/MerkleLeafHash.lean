import LedgerBabylon.Common.Merkle

/-!
# Fetching the hash of a Merkle leaf

The client answers `GET_MERKLE_LEAF_PROOF` with a leaf hash, the length of its proof and the first
proof elements, and sends the rest in answers to `GET_MORE_ELEMENTS`. The device climbs from the
leaf and compares the result with the root. The directions are counted from the root down, so they
depend on the length the client announced.
-/

namespace LedgerBabylon

open Exec HashPath List

variable {curHash out : Digest} {c c' c1 c1' c2 c2' : Comm} {proofSize n k : Nat} {p q : List (Bool × Digest)}

section

variable (sha256 : Bytes → Digest) (treeSize leafIndex : UInt32)

def combineWithSibling (isRight : Bool) (curHash siblingHash : Digest) : Cmd Digest :=
  if isRight then merkleCombineHashes sha256 siblingHash curHash
  else merkleCombineHashes sha256 curHash siblingHash

/-- The inner loop: combine the current hash with the next `n` siblings of the read buffer. -/
def proofSteps (proofSize : Nat) : Nat → Nat → Digest → Cmd Digest
  | 0, _, curHash => return curHash
  | n + 1, curStep, curHash => do
    let c ← get
    let siblingHash := Digest.ofMemory c.apdu c.readBuffer.cur
    match merkleGetIthDirection treeSize leafIndex (proofSize - curStep - 1) with
    | none => throw .endless
    | some none => throw (.ret (-1)) -- unexpected, proof too long?
    | some (some isRight) =>
      let combined ← combineWithSibling sha256 isRight curHash siblingHash
      modify fun c => { c with readBuffer := (c.readBuffer.seekCur 32).getD c.readBuffer }
      proofSteps proofSize n (curStep + 1) combined

/-- The outer loop. Every round but the last takes one answer from the client, so the number of
answers left bounds the rounds. -/
def leafHashLoop (proofSize : Nat) : Nat → Nat → Nat → Digest → Cmd Digest
  | 0, _, _, _ => throw .ioReset
  | fuel + 1, curStep, nProofElements, curHash => do
    let curHash ← proofSteps sha256 treeSize leafIndex proofSize nProofElements curStep curHash
    let curStep := curStep + nProofElements
    if curStep = proofSize then return curHash
    setResponse [CCMD_GET_MORE_ELEMENTS] SW_INTERRUPTED_EXECUTION
    processInterruption
    let nProofElements ← readOr (-1) Buffer.readU8
    let elementsLen ← readOr (-1) Buffer.readU8
    let c ← get
    require (-1) (c.readBuffer.canRead (nProofElements.toNat * elementsLen.toNat))
    require (-1) (elementsLen = 32)
    require (-1) (curStep + nProofElements.toNat ≤ proofSize)
    leafHashLoop proofSize fuel curStep nProofElements.toNat curHash

def callGetMerkleLeafHash (merkleRoot : Digest) : Cmd Digest := do
  addToResponse [CCMD_GET_MERKLE_LEAF_PROOF]
  addToResponse merkleRoot.bytes
  addToResponse (varintWrite treeSize.toNat)
  addToResponse (varintWrite leafIndex.toNat)
  finalizeResponse SW_INTERRUPTED_EXECUTION
  processInterruption
  let out ← readOr (-1) fun m b => b.take 32 (Digest.ofMemory m)
  let proofSize ← readOr (-1) Buffer.readU8
  let nProofElements ← readOr (-1) Buffer.readU8
  require (-1) (nProofElements ≤ proofSize)
  let c ← get
  require (-1) (c.readBuffer.canRead (32 * nProofElements.toNat))
  let curHash ← leafHashLoop sha256 treeSize leafIndex proofSize.toNat (c.incoming.length + 1) 0
    nProofElements.toNat out
  require (-1) (merkleRoot = curHash)
  return out

/-- The run climbed from `value` to `out` along `path`, in the directions of the steps `first`, ...,
`first + n - 1`, and hashed the messages of that climb. -/
structure Climbed (proofSize first n : Nat) (value : Digest) (c : Comm) (out : Digest) (c' : Comm)
    (path : List (Bool × Digest)) : Prop where
  directions : (range' first n).map
      (fun step => merkleGetIthDirection treeSize leafIndex (proofSize - step - 1))
    = path.map fun step => some (some step.1)
  out_eq : out = climb sha256 nodeMessage value path
  hashed : c'.hashed = c.hashed ++ messages sha256 nodeMessage value path

variable {sha256 treeSize leafIndex}

theorem combineWithSibling_ok {isRight : Bool} {siblingHash : Digest}
    (h : combineWithSibling sha256 isRight curHash siblingHash c = .ok out c') :
    out = sha256 (ordered nodeMessage isRight curHash siblingHash)
      ∧ c'.hashed = c.hashed ++ [ordered nodeMessage isRight curHash siblingHash] := by
  cases isRight with
  | false =>
    obtain ⟨rfl, rfl⟩ := merkleCombineHashes_ok sha256 h
    exact ⟨rfl, rfl⟩
  | true =>
    obtain ⟨rfl, rfl⟩ := merkleCombineHashes_ok sha256 h
    exact ⟨rfl, rfl⟩

theorem Climbed.append {first : Nat} {value mid : Digest}
    (hp : Climbed sha256 treeSize leafIndex proofSize first n value c mid c1 p)
    (hq : Climbed sha256 treeSize leafIndex proofSize (first + n) k mid c1 out c' q) :
    Climbed sha256 treeSize leafIndex proofSize first (n + k) value c out c' (p ++ q) where
  directions := by
    rw [← range'_append_1, map_append, map_append, hp.directions, hq.directions]
  out_eq := by rw [climb_append, ← hp.out_eq, hq.out_eq]
  hashed := by rw [messages_append, ← hp.out_eq, hq.hashed, hp.hashed, append_assoc]

theorem proofSteps_ok {curStep : Nat}
    (h : proofSteps sha256 treeSize leafIndex proofSize n curStep curHash c = .ok out c') :
    ∃ path, Climbed sha256 treeSize leafIndex proofSize curStep n curHash c out c' path := by
  induction n generalizing curStep curHash c with
  | zero =>
    obtain ⟨rfl, rfl⟩ := pure_ok h
    exact ⟨[], rfl, rfl, by simp [messages]⟩
  | succ n ih =>
    rw [proofSteps, get_bind_apply] at h
    cases hdir : merkleGetIthDirection treeSize leafIndex (proofSize - curStep - 1) with
    | none => simp [hdir] at h
    | some dir =>
      cases dir with
      | none => simp [hdir] at h
      | some isRight =>
        simp only [hdir] at h
        obtain ⟨combined, c1, hcombine, h⟩ := bind_ok h
        obtain ⟨_, c2, hseek, h⟩ := bind_ok h
        rw [modify_ok_iff] at hseek
        obtain ⟨path, hrest⟩ := ih h
        obtain ⟨hcombined, hlog⟩ := combineWithSibling_ok hcombine
        have hstep : Climbed sha256 treeSize leafIndex proofSize curStep 1 curHash c combined
            c2 [(isRight, Digest.ofMemory c.apdu c.readBuffer.cur)] :=
          ⟨by simp [hdir], hcombined, by rw [← hseek]; exact hlog⟩
        rw [Nat.add_comm n 1]
        exact ⟨_, hstep.append hrest⟩

theorem leafHashLoop_ok {fuel curStep : Nat} (hle : curStep + n ≤ proofSize)
    (h : leafHashLoop sha256 treeSize leafIndex proofSize fuel curStep n curHash c = .ok out c') :
    ∃ path, Climbed sha256 treeSize leafIndex proofSize curStep (proofSize - curStep) curHash c
      out c' path := by
  induction fuel generalizing curStep n curHash c with
  | zero => simp [leafHashLoop] at h
  | succ fuel ih =>
    obtain ⟨mid, c1, hsteps, h⟩ := bind_ok_iff.mp h
    obtain ⟨p, hp⟩ := proofSteps_ok hsteps
    split_ifs at h with hdone
    · obtain ⟨rfl, rfl⟩ := pure_ok h
      have hn : proofSize - curStep = n := by omega
      exact ⟨p, hn ▸ hp⟩
    · obtain ⟨_, c2, hset, h⟩ := bind_ok h
      obtain ⟨_, c3, hinterrupt, h⟩ := bind_ok h
      obtain ⟨k, c4, hread, h⟩ := bind_ok h
      obtain ⟨len, c5, hread', h⟩ := bind_ok h
      rw [get_bind_apply] at h
      obtain ⟨_, c6, hcan, h⟩ := bind_ok h
      obtain ⟨_, c7, hlen, h⟩ := bind_ok h
      obtain ⟨_, c8, hfits, h⟩ := bind_ok h
      obtain ⟨-, rfl⟩ := require_ok_iff.mp hcan
      obtain ⟨-, rfl⟩ := require_ok_iff.mp hlen
      obtain ⟨hfits, rfl⟩ := require_ok_iff.mp hfits
      obtain ⟨b1, -, rfl⟩ := readOr_ok hread
      obtain ⟨b2, -, rfl⟩ := readOr_ok hread'
      obtain ⟨q, hq⟩ := ih (by simpa using hfits) h
      obtain ⟨msg, hmsg⟩ := processInterruption_ok hinterrupt
      have hlog : c3.hashed = c1.hashed := hmsg.hashed.trans (setResponse_sameInput hset).hashed
      have hq' : Climbed sha256 treeSize leafIndex proofSize (curStep + n)
          (proofSize - (curStep + n)) mid c1 out c' q :=
        ⟨hq.directions, hq.out_eq, by rw [hq.hashed, ← hlog]⟩
      have hn : n + (proofSize - (curStep + n)) = proofSize - curStep := by omega
      exact ⟨_, hn ▸ hp.append hq'⟩

def announcedProofSize (incoming : List Bytes) : Nat := ((incoming.headD []).getD 37 0).toNat

theorem callGetMerkleLeafHash_ok {merkleRoot : Digest}
    (h : callGetMerkleLeafHash sha256 treeSize leafIndex merkleRoot c = .ok out c') :
    ∃ path, Climbed sha256 treeSize leafIndex (announcedProofSize c.incoming) 0
      (announcedProofSize c.incoming) out c merkleRoot c' path := by
  obtain ⟨_, c1, hadd1, h⟩ := bind_ok h
  obtain ⟨_, c2, hadd2, h⟩ := bind_ok h
  obtain ⟨_, c3, hadd3, h⟩ := bind_ok h
  obtain ⟨_, c4, hadd4, h⟩ := bind_ok h
  obtain ⟨_, c5, hfinal, h⟩ := bind_ok h
  obtain ⟨_, c6, hinterrupt, h⟩ := bind_ok h
  obtain ⟨leaf, c7, hleaf, h⟩ := bind_ok h
  obtain ⟨proofSize, c8, hsize, h⟩ := bind_ok h
  obtain ⟨n, c9, hn, h⟩ := bind_ok h
  obtain ⟨_, _, hnle, h⟩ := bind_ok h
  obtain ⟨hnle, rfl⟩ := require_ok_iff.mp hnle
  rw [get_bind_apply] at h
  obtain ⟨_, _, hcan, h⟩ := bind_ok h
  obtain ⟨-, rfl⟩ := require_ok_iff.mp hcan
  obtain ⟨root, c10, hloop, h⟩ := bind_ok h
  obtain ⟨_, _, hroot, h⟩ := bind_ok h
  obtain ⟨hroot, rfl⟩ := require_ok_iff.mp hroot
  obtain ⟨rfl, rfl⟩ := pure_ok h
  obtain rfl : merkleRoot = root := by simpa using hroot
  obtain ⟨msg, hmsg⟩ := processInterruption_ok hinterrupt
  have hsame : c.SameInput c5 :=
    (addToResponse_sameInput hadd1).trans <| (addToResponse_sameInput hadd2).trans <|
      (addToResponse_sameInput hadd3).trans <| (addToResponse_sameInput hadd4).trans
        (finalizeResponse_sameInput hfinal)
  obtain ⟨b1, hb1, rfl⟩ := readOr_ok hleaf
  obtain ⟨b2, hb2, rfl⟩ := readOr_ok hsize
  obtain ⟨b3, hb3, rfl⟩ := readOr_ok hn
  -- the size byte is read at offset 32 of the data, which is byte 37 of the message
  have hannounced : announcedProofSize c.incoming = proofSize.toNat := by
    obtain ⟨-, hptr1, hsize1, hoff1⟩ := Buffer.take_eq_some hb1
    obtain ⟨hbyte, -, hsize2, hoff2⟩ := Buffer.take_eq_some hb2
    have hbound := b2.offset_le
    simp only [hmsg.readBuffer, Buffer.create] at hptr1 hsize1 hoff1
    simp only at hsize2 hoff2
    have haddr : b1.cur = 37 := by simp only [Buffer.cur]; omega
    simp only [haddr, hmsg.apdu] at hbyte
    rw [Memory.write_apply_inside _ (by omega) (by omega)] at hbyte
    rw [announcedProofSize, ← hsame.incoming, hmsg.incoming, hbyte]
    rfl
  obtain ⟨path, hpath⟩ := leafHashLoop_ok (by simpa [UInt8.le_iff_toNat_le] using hnle) hloop
  rw [hannounced]
  refine ⟨path, hpath.directions, hpath.out_eq, ?_⟩
  rw [hpath.hashed, ← hsame.hashed, ← hmsg.hashed]

def newlyHashed (c c' : Comm) : List Bytes := c'.hashed.drop c.hashed.length

theorem Climbed.newlyHashed_eq {first : Nat} {value : Digest} {path : List (Bool × Digest)}
    (h : Climbed sha256 treeSize leafIndex proofSize first n value c out c' path) :
    newlyHashed c c' = messages sha256 nodeMessage value path := by
  rw [newlyHashed, h.hashed, drop_left]

theorem Climbed.directions_reverse {value : Digest} {path : List (Bool × Digest)}
    (h : Climbed sha256 treeSize leafIndex n 0 n value c out c' path) :
    path.map (fun step => some (some step.1))
      = ((range n).map (merkleGetIthDirection treeSize leafIndex)).reverse := by
  rw [← h.directions]
  apply ext_getElem
  · simp
  · intro i hi _
    simp only [length_map, length_range'] at hi
    simp [getElem_reverse, Nat.sub_sub, Nat.add_comm]

theorem Climbed.length_path {value : Digest} {path : List (Bool × Digest)}
    (h : Climbed sha256 treeSize leafIndex n 0 n value c out c' path) : path.length = n := by
  simpa using congrArg length h.directions.symm

theorem Climbed.directions_drop {v w out' : Digest}
    (hp : Climbed sha256 treeSize leafIndex n 0 n v c1 out c1' p)
    (hq : Climbed sha256 treeSize leafIndex (n + k) 0 (n + k) w c2 out' c2' q) :
    p.map Prod.fst = (q.drop k).map Prod.fst := by
  have hinj : Function.Injective fun b : Bool => some (some b) := by
    intro a b h
    simpa using h
  apply map_injective_iff.mpr hinj
  simp only [map_map, Function.comp_def, map_drop]
  rw [hp.directions_reverse, hq.directions_reverse, range_add, map_append,
    reverse_append, drop_left' (by simp)]

theorem Climbed.binding {v w root : Digest} (hp : Climbed sha256 treeSize leafIndex n 0 n v c1 root c1' p)
    (hq : Climbed sha256 treeSize leafIndex n 0 n w c2 root c2' q) :
    v = w ∨ Collides sha256 (newlyHashed c1 c1' ++ newlyHashed c2 c2') := by
  have hdirs : p.map Prod.fst = q.map Prod.fst := hp.directions_drop (k := 0) hq
  have hroot := hp.out_eq.symm.trans hq.out_eq
  rw [hp.newlyHashed_eq, hq.newlyHashed_eq]
  exact (climb_binding sha256 nodeMessage nodeMessage_injective hdirs hroot).imp And.left id

/-- A leaf with two accepted proofs of different length is the hash of an inner node that was
hashed, or a collision was hashed. -/
theorem Climbed.leaf_is_inner {leaf root : Digest} (hk : 0 < k)
    (hp : Climbed sha256 treeSize leafIndex n 0 n leaf c1 root c1' p)
    (hq : Climbed sha256 treeSize leafIndex (n + k) 0 (n + k) leaf c2 root c2' q) :
    (∃ m ∈ newlyHashed c2 c2', sha256 m = leaf)
      ∨ Collides sha256 (newlyHashed c1 c1' ++ newlyHashed c2 c2') := by
  have hsplit : q.take k ++ q.drop k = q := take_append_drop k q
  have hmessages : messages sha256 nodeMessage leaf q = messages sha256 nodeMessage leaf (q.take k)
        ++ messages sha256 nodeMessage (climb sha256 nodeMessage leaf (q.take k)) (q.drop k) := by
    rw [← messages_append, hsplit]
  have hroot : climb sha256 nodeMessage leaf p
      = climb sha256 nodeMessage (climb sha256 nodeMessage leaf (q.take k)) (q.drop k) := by
    rw [← climb_append, hsplit, ← hp.out_eq, hq.out_eq]
  rw [hp.newlyHashed_eq, hq.newlyHashed_eq, hmessages]
  rcases climb_binding sha256 nodeMessage nodeMessage_injective (hp.directions_drop hq) hroot with
    ⟨hcycle, -⟩ | hcollides
  · left
    have htake : q.take k ≠ [] := by
      have hlen := hq.length_path
      intro hnil
      have hzero := congrArg length hnil
      rw [length_take, length_nil] at hzero
      omega
    obtain ⟨m, hm, heq⟩ := climb_eq_hash sha256 nodeMessage leaf htake
    exact ⟨m, mem_append_left _ hm, heq.trans hcycle.symm⟩
  · right
    refine hcollides.mono sha256 fun m hm => ?_
    simp only [mem_append] at hm ⊢
    tauto

/-- Only an index in the tree has directions. -/
theorem index_lt_of_directions (hp : p ≠ []) (h : (p.map fun step => some (some step.1)) =
      ((range p.length).map (merkleGetIthDirection treeSize leafIndex)).reverse) :
    1 < treeSize ∧ leafIndex < treeSize := by
  obtain ⟨step, hstep⟩ := exists_mem_of_ne_nil p hp
  have hdirection := mem_map_of_mem (f := fun step : Bool × Digest => some (some step.1)) hstep
  rw [h, mem_reverse] at hdirection
  obtain ⟨i, -, hi⟩ := mem_map.mp hdirection
  exact merkleGetIthDirection_some hi

/-- **Binding of leaf hashes.** Two accepting runs on one root, size and index return the same hash if
both announce the same proof size, or a collision was hashed. Conversely, if they return the same hash,
which is not that of an inner node hashed on the way, and no collision was hashed, the proof sizes are
the same. A proof is only accepted for an index in the tree, and no proof only for the root itself. -/
theorem callGetMerkleLeafHash_binding {merkleRoot out1 out2 : Digest} {c1 c1' c2 c2' : Comm}
    (hrun1 : callGetMerkleLeafHash sha256 treeSize leafIndex merkleRoot c1 = .ok out1 c1')
    (hrun2 : callGetMerkleLeafHash sha256 treeSize leafIndex merkleRoot c2 = .ok out2 c2') :
    (announcedProofSize c1.incoming = announcedProofSize c2.incoming →
        out1 = out2 ∨ Collides sha256 (newlyHashed c1 c1' ++ newlyHashed c2 c2'))
      ∧ (¬ Collides sha256 (newlyHashed c1 c1' ++ newlyHashed c2 c2') →
        (∀ m ∈ newlyHashed c1 c1' ++ newlyHashed c2 c2', sha256 m ≠ out1) → out1 = out2 →
        announcedProofSize c1.incoming = announcedProofSize c2.incoming)
      ∧ (0 < announcedProofSize c1.incoming → leafIndex < treeSize)
      ∧ (announcedProofSize c1.incoming = 0 → out1 = merkleRoot) := by
  obtain ⟨p, hp⟩ := callGetMerkleLeafHash_ok hrun1
  obtain ⟨q, hq⟩ := callGetMerkleLeafHash_ok hrun2
  have hlength := hp.length_path
  refine ⟨fun hsize => ?_, ?_, fun hpos => ?_, fun hzero => ?_⟩
  · rw [← hsize] at hq
    exact hp.binding hq
  · rintro hfree hleaf rfl
    rcases lt_trichotomy (announcedProofSize c1.incoming) (announcedProofSize c2.incoming)
      with hlt | heq | hgt
    · obtain ⟨k, hk⟩ := Nat.exists_eq_add_of_le hlt.le
      rw [hk] at hq hlt
      rcases hp.leaf_is_inner (by omega) hq with ⟨m, hm, hmeq⟩ | hcollides
      · exact absurd hmeq (hleaf m (mem_append_right _ hm))
      · exact absurd hcollides hfree
    · exact heq
    · obtain ⟨k, hk⟩ := Nat.exists_eq_add_of_le hgt.le
      rw [hk] at hp hgt
      rcases hq.leaf_is_inner (by omega) hp with ⟨m, hm, hmeq⟩ | hcollides
      · exact absurd hmeq (hleaf m (mem_append_left _ hm))
      · refine absurd (hcollides.mono sha256 fun m hm => ?_) hfree
        simp only [mem_append] at hm ⊢
        tauto
  · refine (index_lt_of_directions (p := p) (length_pos_iff.mp (by omega)) ?_).2
    rw [hp.directions_reverse, hlength]
  · rw [hzero, length_eq_zero_iff] at hlength
    rw [hp.out_eq, hlength, climb]

end

namespace TwoLeaves

-- the leaves hold the one-byte elements `A` and `B`; all values are those of SHA-256
def leafA : Digest := .ofNat 0xc00b4d3c929cb5cc316691ed4636f634576f2c9b2954767234c5274e9dde185d

def leafB : Digest := .ofNat 0x87afe6086fe4571e37657e76281301f189c75ebae1d2eaafb56d578067a1d95e

def root : Digest := .ofNat 0xed692f01f7f6c46930d7ad8f9adad3f9f38b7379cf6a8d2f399a0ba1e914fe25

def sha256 : Bytes → Digest := sha256Table [(nodeMessage leafA leafB, root)]

def honest : Comm := .idle [continueApdu (leafA.bytes ++ [1, 1] ++ leafB.bytes)]

def honestSplit : Comm := .idle [continueApdu (leafA.bytes ++ [1, 0]), continueApdu ([1, 32] ++ leafB.bytes)]

def rootAsLeaf : Comm := .idle [continueApdu (root.bytes ++ [0, 0])]

theorem honest_ok : returned? (callGetMerkleLeafHash sha256 2 0 root) honest = some leafA := by
  decide +kernel

theorem honestSplit_ok : returned? (callGetMerkleLeafHash sha256 2 0 root) honestSplit = some leafA := by
  decide +kernel

theorem rootAsLeaf_ok : returned? (callGetMerkleLeafHash sha256 2 0 root) rootAsLeaf = some root := by
  decide +kernel

theorem rootAsLeaf_outside_ok : returned? (callGetMerkleLeafHash sha256 2 2 root) rootAsLeaf = some root := by
  decide +kernel

end TwoLeaves

open TwoLeaves in
/-- The two splits of the honest answer announce one proof size and return one leaf. -/
theorem callGetMerkleLeafHash_binding_honest :
    announcedProofSize honest.incoming = announcedProofSize honestSplit.incoming
      ∧ (leafA = leafA ∨ Collides TwoLeaves.sha256
        (newlyHashed honest (finalState (callGetMerkleLeafHash TwoLeaves.sha256 2 0 root) honest)
          ++ newlyHashed honestSplit
            (finalState (callGetMerkleLeafHash TwoLeaves.sha256 2 0 root) honestSplit)))
      ∧ (0 : UInt32) < 2 := by
  obtain ⟨hsame, -, hindex, -⟩ :=
    callGetMerkleLeafHash_binding (ok_of_returned? honest_ok) (ok_of_returned? honestSplit_ok)
  exact ⟨by decide, hsame (by decide), hindex (by decide)⟩

open TwoLeaves in
/-- Without any collision, a client can have the root accepted as a leaf next to a true leaf, and at an
index outside the tree. -/
theorem not_callGetMerkleLeafHash_binding : (¬ ∀ (sha256 : Bytes → Digest) (treeSize leafIndex : UInt32)
        (merkleRoot out1 out2 : Digest) (c1 c1' c2 c2' : Comm),
      callGetMerkleLeafHash sha256 treeSize leafIndex merkleRoot c1 = .ok out1 c1' →
      callGetMerkleLeafHash sha256 treeSize leafIndex merkleRoot c2 = .ok out2 c2' →
      out1 = out2 ∨ Collides sha256 (newlyHashed c1 c1' ++ newlyHashed c2 c2'))
    ∧ ¬ ∀ (sha256 : Bytes → Digest) (treeSize leafIndex : UInt32) (merkleRoot out : Digest) (c c' : Comm),
      callGetMerkleLeafHash sha256 treeSize leafIndex merkleRoot c = .ok out c' →
      leafIndex < treeSize ∨ Collides sha256 (newlyHashed c c') := by
  refine ⟨fun h => ?_, fun h => ?_⟩
  · rcases h _ _ _ _ _ _ _ _ _ _ (ok_of_returned? honest_ok) (ok_of_returned? rootAsLeaf_ok)
      with heq | hcollides
    · exact absurd heq (by decide)
    · exact absurd hcollides (by decide +kernel)
  · rcases h _ _ _ _ _ _ _ (ok_of_returned? rootAsLeaf_outside_ok) with hlt | hcollides
    · exact absurd hlt (by decide)
    · exact absurd hcollides (by decide +kernel)

end LedgerBabylon
