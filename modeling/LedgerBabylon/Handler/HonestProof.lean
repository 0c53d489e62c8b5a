import LedgerBabylon.Client.Merkle
import LedgerBabylon.Client.Streams
import LedgerBabylon.Common.MerkleDirections
import LedgerBabylon.Handler.MerkleLeafHash

/-!
# Honest Merkle proofs

A client that answers `GET_MERKLE_LEAF_PROOF` from its own tree may send the proof elements in as many
answers as it likes. Whatever the split, the device climbs the path of the leaf and arrives at the root.
-/

namespace LedgerBabylon

open List Exec HashPath

variable {n curStep fuel : Nat} {unread : Bytes} {more : List Digest} {t : HashTree Digest}
  {path : List (Bool × Digest)} {first : List Digest}

structure Comm.Reading (c : Comm) (unread : Bytes) (incoming : List Bytes) : Prop where
  outputLen : c.outputLen = 0
  incoming : c.incoming = incoming
  unread : c.readBuffer.Unread c.apdu unread

theorem runs_processInterruption {data : Bytes} {rest : List Bytes} (hdata : data.length ≤ 255) :
    Runs (fun c : Comm => c.incoming = continueApdu data :: rest) processInterruption ()
      (Comm.Reading · data rest) := by
  intro c h
  have hlen : (continueApdu data).length = data.length + 5 := rfl
  have hbyte : (UInt8.ofNat data.length).toNat = data.length := by
    rw [UInt8.toNat_ofNat', Nat.mod_eq_of_lt (by omega)]
  have hat (i : Nat) (hi : i < 5) : c.apdu.write 0 (continueApdu data) i = (continueApdu data).getD i 0 := by
    rw [Memory.write_apply_inside _ (Nat.zero_le i) (by omega), Nat.sub_zero]
  have hparse : apduParser (c.apdu.write 0 (continueApdu data)) (continueApdu data).length =
      some ⟨CLA_FRAMEWORK, INS_CONTINUE, 0, 0, UInt8.ofNat data.length⟩ := by
    rw [apduParser, hat 0 (by omega), hat 1 (by omega), hat 2 (by omega), hat 3 (by omega),
      hat 4 (by omega), hlen]
    simp [continueApdu, hbyte]
  have hexchange : exchange c = .ok (continueApdu data).length
      { c with
        sent := c.sent ++ [c.apdu.read 0 c.outputLen]
        apdu := c.apdu.write 0 (continueApdu data)
        incoming := rest } := by
    rw [exchange, get_bind_apply, h]
    rfl
  have hread : (c.apdu.write 0 (continueApdu data)).read 5 data.length = data := by
    rw [Memory.read_write_inside _ (Nat.zero_le 5) (by omega)]
    simp [continueApdu]
  have hrun : processInterruption c = .ok ()
      { c with
        sent := c.sent ++ [c.apdu.read 0 c.outputLen]
        apdu := c.apdu.write 0 (continueApdu data)
        incoming := rest
        outputLen := 0
        sw := 0
        readBuffer := Buffer.create 5 (UInt8.ofNat data.length).toNat } := by
    rw [processInterruption, bind_of_ok hexchange, bind_of_ok (a := ()) (modify_ok_iff.mpr rfl),
      get_bind_apply]
    simp only [hparse]
    exact modify_ok_iff.mpr rfl
  exact ⟨_, hrun, rfl, rfl, by simp [Buffer.create, hbyte], hread⟩

section

variable {data rest : Bytes} {incoming : List Bytes}

theorem runs_readOr {α : Type} (code : Int) {f : Memory → Buffer → Option (α × Buffer)} {a : α}
    (hf : ∀ m b, b.Unread m data → ∃ b', f m b = some (a, b') ∧ b'.Unread m rest) :
    Runs (Comm.Reading · data incoming) (readOr code f) a (Comm.Reading · rest incoming) := by
  intro c hc
  obtain ⟨b, hread, hrest⟩ := hf c.apdu c.readBuffer hc.unread
  refine ⟨{ c with readBuffer := b }, ?_, hc.outputLen, hc.incoming, hrest⟩
  rw [readOr, get_bind_apply, hread]
  rfl

theorem runs_readU8 (code : Int) (byte : UInt8) :
    Runs (Comm.Reading · (byte :: rest) incoming) (readOr code Buffer.readU8) byte
      (Comm.Reading · rest incoming) :=
  runs_readOr code fun _ _ h => h.readU8

theorem runs_readDigest (code : Int) (d : Digest) : Runs (Comm.Reading · (d.bytes ++ rest) incoming)
      (readOr code fun m b => b.take 32 (Digest.ofMemory m)) d (Comm.Reading · rest incoming) :=
  runs_readOr code fun _ _ h => Digest.take_of_unread h

theorem runs_require {P : Comm → Prop} (code : Int) {cond : Bool} (h : cond) :
    Runs P (require code cond) () P :=
  fun c hc => ⟨c, require_ok_iff.mpr ⟨h, rfl⟩, hc⟩

/-- So many bytes of a response have been written. -/
def Comm.Sending (c : Comm) (n : Nat) (incoming : List Bytes) : Prop :=
  c.outputLen = n ∧ c.incoming = incoming

theorem runs_addToResponse (rdata : Bytes) (h : n + rdata.length < 258) :
    Runs (Comm.Sending · n incoming) (addToResponse rdata) ()
      (Comm.Sending · (n + rdata.length) incoming) := by
  rintro c ⟨rfl, rfl⟩
  have hsize : apduBufferSize - 2 = 258 := rfl
  exact ⟨_, addToResponse_fits (by omega) (by omega), rfl, rfl⟩

theorem runs_finalizeResponse (sw : Nat) (h : n < 258) :
    Runs (Comm.Sending · n incoming) (finalizeResponse sw) () fun c => c.incoming = incoming := by
  rintro c ⟨rfl, rfl⟩
  exact ⟨_, finalizeResponse_fits h, rfl⟩

theorem runs_setResponse {rdata : Bytes} (sw : Nat) (h : rdata.length < 258) :
    Runs (Comm.Reading · unread incoming) (setResponse rdata sw) () fun c => c.incoming = incoming := by
  have hsend : Runs (Comm.Sending · 0 incoming) (setResponse rdata sw) () fun c => c.incoming = incoming :=
    (runs_addToResponse rdata (by omega)).bind (runs_finalizeResponse sw (by omega))
  exact fun c hc => hsend c ⟨hc.outputLen, hc.incoming⟩

end

section

variable {sha256 : Bytes → Digest} {treeSize leafIndex : UInt32}

variable {incoming : List Bytes}

theorem runs_combineWithSibling (isRight : Bool) (curHash siblingHash : Digest) :
    Runs (Comm.Reading · unread incoming) (combineWithSibling sha256 isRight curHash siblingHash)
      (sha256 (ordered nodeMessage isRight curHash siblingHash)) (Comm.Reading · unread incoming) := by
  intro c hc
  exact ⟨{ c with hashed := c.hashed ++ [ordered nodeMessage isRight curHash siblingHash] },
    by cases isRight <;> rfl, hc.outputLen, hc.incoming, hc.unread⟩

theorem runs_seekDigest {d : Digest} {rest : Bytes} : Runs (Comm.Reading · (d.bytes ++ rest) incoming)
      (modify fun c => { c with readBuffer := (c.readBuffer.seekCur 32).getD c.readBuffer } : Cmd Unit) ()
      (Comm.Reading · rest incoming) := by
  intro c hc
  obtain ⟨b, hseek, hrest⟩ := hc.unread.seekCur
  rw [d.length_bytes] at hseek
  exact ⟨_, modify_ok_iff.mpr rfl, hc.outputLen, hc.incoming, by simpa only [hseek, Option.getD_some]⟩

def GoesAlong (treeSize leafIndex : UInt32) (path : List (Bool × Digest)) : Prop :=
  ∀ (step : Nat) (isRight : Bool) (siblingHash : Digest), path[step]? = some (isRight, siblingHash) →
    merkleGetIthDirection treeSize leafIndex (path.length - step - 1) = some (some isRight)

theorem runs_proofSteps (hpath : GoesAlong treeSize leafIndex path)
    (curHash : Digest) {siblings : List Digest} {rest : Bytes}
    (hsiblings : (path.drop curStep).map Prod.snd = siblings ++ more) :
    Runs (Comm.Reading · (siblings.flatMap Digest.bytes ++ rest) incoming)
      (proofSteps sha256 treeSize leafIndex path.length siblings.length curStep curHash)
      (climb sha256 nodeMessage curHash ((path.drop curStep).take siblings.length))
      (Comm.Reading · rest incoming) := by
  induction siblings generalizing curStep curHash with
  | nil => exact runs_pure _
  | cons sibling siblings ih =>
    -- the next step of the path has this sibling
    obtain ⟨⟨isRight, sibling'⟩, tail, hdrop, hsibling, htail⟩ := map_eq_cons_iff.mp hsiblings
    obtain rfl : sibling = sibling' := hsibling.symm
    have hstep : path[curStep]? = some (isRight, sibling) := by
      rw [← head?_drop, hdrop]
      rfl
    have htail' : path.drop (curStep + 1) = tail := by
      rw [← tail_drop, hdrop, tail_cons]
    have hrest := ih (sha256 (ordered nodeMessage isRight curHash sibling)) (htail' ▸ htail)
    rw [htail'] at hrest
    rw [flatMap_cons, append_assoc, hdrop]
    refine runs_get_bind fun c hc => ?_
    simp only [Digest.ofMemory_of_unread hc.unread, hpath curStep isRight sibling hstep]
    exact (runs_combineWithSibling isRight curHash sibling).bind (runs_seekDigest.bind hrest)

def moreElementsAnswer (elements : List Digest) : Bytes :=
  continueApdu (UInt8.ofNat elements.length :: 32 :: elements.flatMap Digest.bytes)

theorem length_flatMap_bytes (elements : List Digest) :
    (elements.flatMap Digest.bytes).length = 32 * elements.length := by
  induction elements with
  | nil => rfl
  | cons d elements ih =>
    rw [flatMap_cons, length_append, d.length_bytes, ih, length_cons]
    omega

theorem runs_leafHashLoop_done (hpath : GoesAlong treeSize leafIndex path) (curHash : Digest) {rest : Bytes}
    (hsplit : (path.drop curStep).map Prod.snd = first ++ more)
    (hdone : curStep + first.length = path.length) :
    Runs (Comm.Reading · (first.flatMap Digest.bytes ++ rest) incoming)
      (leafHashLoop sha256 treeSize leafIndex path.length (fuel + 1) curStep first.length curHash)
      (climb sha256 nodeMessage curHash (path.drop curStep)) fun _ => True := by
  refine (runs_proofSteps hpath curHash hsplit).bind ?_
  rw [if_pos hdone, take_of_length_le (by rw [length_drop]; omega)]
  exact fun c _ => ⟨c, rfl, trivial⟩

variable (sha256) in
theorem runs_leafHashLoop (hpath : GoesAlong treeSize leafIndex path)
    {more : List (List Digest)} (hmore : ∀ elements ∈ more, elements.length ≤ 7) (curHash : Digest)
    (rest : Bytes) (others : List Bytes)
    (hfuel : more.length < fuel) (hcur : curStep ≤ path.length)
    (hsplit : (path.drop curStep).map Prod.snd = first ++ more.flatten) :
    Runs (Comm.Reading · (first.flatMap Digest.bytes ++ rest) (more.map moreElementsAnswer ++ others))
      (leafHashLoop sha256 treeSize leafIndex path.length fuel curStep first.length curHash)
      (climb sha256 nodeMessage curHash (path.drop curStep)) fun _ => True := by
  induction more generalizing first fuel curStep curHash rest with
  | nil =>
    obtain ⟨fuel, rfl⟩ : ∃ n, fuel = n + 1 := ⟨fuel - 1, by omega⟩
    have hlen : path.length - curStep = first.length := by simpa using congrArg length hsplit
    exact runs_leafHashLoop_done hpath curHash hsplit (by omega)
  | cons elements more ih =>
    obtain ⟨fuel, rfl⟩ : ∃ n, fuel = n + 1 := ⟨fuel - 1, by omega⟩
    by_cases hdone : curStep + first.length = path.length
    · exact runs_leafHashLoop_done hpath curHash hsplit hdone
    have hlen : path.length - curStep = first.length + (elements.length + more.flatten.length) := by
      simpa using congrArg length hsplit
    have hseven : elements.length ≤ 7 := hmore elements mem_cons_self
    have hcount : (UInt8.ofNat elements.length).toNat = elements.length := by
      rw [UInt8.toNat_ofNat', Nat.mod_eq_of_lt (by omega)]
    have hdata : (UInt8.ofNat elements.length :: 32 :: elements.flatMap Digest.bytes).length ≤ 255 := by
      rw [length_cons, length_cons, length_flatMap_bytes]
      omega
    have hnext : (path.drop (curStep + first.length)).map Prod.snd = elements ++ more.flatten := by
      rw [← drop_drop, map_drop, hsplit, drop_left, flatten_cons]
    refine (runs_proofSteps hpath curHash hsplit).bind ?_
    rw [if_neg hdone]
    refine (runs_setResponse _ (by decide)).bind ((runs_processInterruption hdata).bind ?_)
    refine (runs_readU8 _ _).bind ((runs_readU8 _ _).bind (runs_get_bind fun c hc => ?_))
    rw [hcount]
    refine (runs_require _ ?_).bind ((runs_require _ (by decide)).bind
      ((runs_require _ (decide_eq_true (by omega))).bind ?_))
    · rw [hc.unread.canRead_iff, length_flatMap_bytes, Nat.mul_comm]
      exact Nat.le_refl _
    · have hloop := ih (fun e he => hmore e (mem_cons_of_mem _ he))
        (climb sha256 nodeMessage curHash ((path.drop curStep).take first.length)) []
        (Nat.lt_of_succ_lt_succ hfuel) (by omega) hnext
      rwa [append_nil, ← climb_append, ← drop_drop, take_append_drop] at hloop

def leafProofAnswer (leaf : Digest) (proofSize : Nat) (elements : List Digest) : Bytes :=
  continueApdu (leaf.bytes ++
    (UInt8.ofNat proofSize :: UInt8.ofNat elements.length :: elements.flatMap Digest.bytes))

/-- A split of a proof: six elements fit in the first answer and seven in each of the others. -/
structure ProofSplit (proof first : List Digest) (more : List (List Digest)) : Prop where
  proof_eq : first ++ more.flatten = proof
  first_le : first.length ≤ 6
  more_le : ∀ elements ∈ more, elements.length ≤ 7

variable (sha256) in
theorem goesAlong_path (ht : t.IsSplit) (hsize : treeSize.toNat = t.size)
    (hle : t.size ≤ 2 ^ 31) (hindex : leafIndex.toNat < t.size) :
    GoesAlong treeSize leafIndex (t.path sha256 nodeMessage leafIndex.toNat) := by
  intro step isRight siblingHash hstep
  have hdirections := t.directions_path sha256 nodeMessage ht leafIndex.toNat
  have hlen := congrArg length hdirections
  rw [length_map, length_reverse] at hlen
  have hlt : step < (t.path sha256 nodeMessage leafIndex.toNat).length :=
    (List.getElem?_eq_some_iff.mp hstep).1
  have hget := congrArg (·[step]?) hdirections
  simp only [getElem?_map, hstep, Option.map_some] at hget
  rw [getElem?_reverse (by omega), ← hlen] at hget
  rw [merkleGetIthDirection_eq (by omega) (by omega), hsize, hget, Nat.sub_right_comm]

/-- The device accepts the path of a leaf in any split. -/
theorem callGetMerkleLeafHash_accepts (ht : t.IsSplit) (hle : t.size ≤ 2 ^ 31)
    (hsize : treeSize.toNat = t.size) {leaf : Digest} (hleaf : t.leaves[leafIndex.toNat]? = some leaf)
    {more : List (List Digest)}
    (hsplit : ProofSplit ((t.path sha256 nodeMessage leafIndex.toNat).map Prod.snd) first more)
    {c : Comm} {others : List Bytes} (hempty : c.outputLen = 0)
    (hincoming : c.incoming = leafProofAnswer leaf (t.path sha256 nodeMessage leafIndex.toNat).length first ::
        (more.map moreElementsAnswer ++ others)) :
    ∃ c', callGetMerkleLeafHash sha256 treeSize leafIndex (t.value sha256 nodeMessage) c = .ok leaf c' := by
  have hindex : leafIndex.toNat < t.size := by
    rw [← HashTree.length_leaves]
    exact (List.getElem?_eq_some_iff.mp hleaf).1
  have hgoes := goesAlong_path sha256 ht hsize hle hindex
  have hclimb := HashTree.climb_path sha256 nodeMessage hleaf
  have hdepth : (t.path sha256 nodeMessage leafIndex.toNat).length ≤ 31 := by
    have hlen := congrArg length (t.directions_path sha256 nodeMessage ht leafIndex.toNat)
    rw [length_map, length_reverse] at hlen
    rw [hlen]
    exact HashTree.length_directions_le hle _
  generalize t.path sha256 nodeMessage leafIndex.toNat = path at *
  have hproofSize : (UInt8.ofNat path.length).toNat = path.length := by
    rw [UInt8.toNat_ofNat', Nat.mod_eq_of_lt (by omega)]
  have hcount : (UInt8.ofNat first.length).toNat = first.length := by
    rw [UInt8.toNat_ofNat', Nat.mod_eq_of_lt (by have := hsplit.first_le; omega)]
  have hfirst : first.length ≤ path.length := by
    have := congrArg length hsplit.proof_eq
    rw [length_append, length_map] at this
    omega
  have hvarint (n : UInt32) : (varintWrite n.toNat).length ≤ 5 := by
    have hn := n.toNat_lt
    rw [length_varintWrite, varintSize]
    split_ifs <;> omega
  have hsize1 := hvarint treeSize
  have hsize2 := hvarint leafIndex
  have hroot := (t.value sha256 nodeMessage).length_bytes
  have hdata : (leaf.bytes ++ (UInt8.ofNat path.length :: UInt8.ofNat first.length ::
      first.flatMap Digest.bytes)).length ≤ 255 := by
    have := hsplit.first_le
    rw [length_append, leaf.length_bytes, length_cons, length_cons, length_flatMap_bytes]
    omega
  have hrun : Runs (Comm.Sending · 0 c.incoming) (callGetMerkleLeafHash sha256 treeSize leafIndex
      (t.value sha256 nodeMessage)) leaf fun _ => True := by
    -- the request
    refine (runs_addToResponse _ (by decide)).bind ((runs_addToResponse _ (by simp [hroot])).bind ?_)
    refine (runs_addToResponse _ (by simp [hroot]; omega)).bind
      ((runs_addToResponse _ (by simp [hroot]; omega)).bind ?_)
    refine (runs_finalizeResponse _ (by simp [hroot]; omega)).bind ?_
    -- the first answer
    rw [hincoming]
    refine (runs_processInterruption hdata).bind ((runs_readDigest _ _).bind ?_)
    refine (runs_readU8 _ _).bind ((runs_readU8 _ _).bind ?_)
    refine (runs_require _ (decide_eq_true ?_)).bind (runs_get_bind fun c' hc' => ?_)
    · rw [UInt8.le_iff_toNat_le, hcount, hproofSize]
      exact hfirst
    rw [hproofSize, hcount]
    refine (runs_require _ ?_).bind ?_
    · rw [hc'.unread.canRead_iff, length_flatMap_bytes]
    have hfuel : more.length < c'.incoming.length + 1 := by
      rw [hc'.incoming, length_append, length_map]
      omega
    have hloop := runs_leafHashLoop sha256 hgoes hsplit.more_le leaf [] others hfuel
      (Nat.zero_le _) (by rw [drop_zero]; exact hsplit.proof_eq.symm)
    rw [append_nil, drop_zero, hclimb] at hloop
    exact hloop.bind ((runs_require _ (decide_eq_true rfl)).bind (runs_pure _))
  obtain ⟨c', hc', -⟩ := hrun c ⟨hempty, rfl⟩
  exact ⟨c', hc'⟩

end

/-- The clients agree on the root and on the proof of a leaf, and the device accepts the proof in any
split. -/
structure HonestlyProved (sha256 : Bytes → Digest) (leaves : List Digest) (index : Nat)
    (leaf root : Digest) (proof : List Digest) : Prop where
  python : ∃ tree, Python.MerkleTree.init sha256 leaves = some tree ∧ tree.root = some root ∧
    tree.proveLeaf index = some proof
  javaScript : ∃ tree, JavaScript.Merkle.new sha256 leaves = some tree ∧ tree.getRoot = some root ∧
    tree.getProof index = some proof
  rust : ∃ tree, Rust.MerkleTree.new sha256 leaves = some tree ∧ tree.rootHash = some root ∧
    tree.getLeafProof index = some proof
  accepted : ∀ (first : List Digest) (more : List (List Digest)) (others : List Bytes) (c : Comm),
    ProofSplit proof first more → c.outputLen = 0 →
    c.incoming = leafProofAnswer leaf proof.length first :: (more.map moreElementsAnswer ++ others) →
    ∃ c', callGetMerkleLeafHash sha256 (UInt32.ofNat leaves.length) (UInt32.ofNat index) root c = .ok leaf c'

/-- **Honest proofs are accepted.** For every list of up to `2^31` leaf hashes and every index. -/
theorem honestlyProved (sha256 : Bytes → Digest) {leaves : List Digest} (hle : leaves.length ≤ 2 ^ 31)
    {index : Nat} {leaf : Digest} (hleaf : leaves[index]? = some leaf) :
    ∃ root proof, HonestlyProved sha256 leaves index leaf root proof := by
  have hindex : index < leaves.length := (List.getElem?_eq_some_iff.mp hleaf).1
  have hne : leaves ≠ [] := length_pos_iff.mp (by omega)
  obtain ⟨t, rfl, ht, ⟨python, hpython, hproot, hpview⟩, ⟨javaScript, hjavaScript, hjroot, hjview⟩, rust,
    hrust, hrroot, hrview⟩ := clients_serve_tree sha256 hne hle
  rw [HashTree.length_leaves] at hindex hle
  have htoNat {n : Nat} (hn : n ≤ t.size) : (UInt32.ofNat n).toNat = n := by
    rw [UInt32.toNat_ofNat', Nat.mod_eq_of_lt (by omega)]
  have hprove {view : TreeView} (hview : view = .of sha256 t) :
      view.prove index = some ((t.path sha256 nodeMessage index).map Prod.snd) := by
    rw [hview]
    exact if_pos hindex
  refine ⟨t.value sha256 nodeMessage, (t.path sha256 nodeMessage index).map Prod.snd,
    ⟨python, hpython, hproot, hprove hpview⟩, ⟨javaScript, hjavaScript, hjroot, hprove hjview⟩,
    ⟨rust, hrust, hrroot, hprove hrview⟩, ?_⟩
  intro first more others c hsplit hempty hincoming
  rw [length_map] at hincoming
  rw [HashTree.length_leaves]
  have hindexNat := htoNat hindex.le
  rw [← hindexNat] at hleaf hsplit hincoming
  exact callGetMerkleLeafHash_accepts ht hle (htoNat (Nat.le_refl _)) hleaf hsplit hempty hincoming

theorem honestlyProved_twoLeaves :
    ∃ root proof, HonestlyProved TwoLeaves.sha256 [TwoLeaves.leafA, TwoLeaves.leafB] 1 TwoLeaves.leafB root
      proof :=
  honestlyProved TwoLeaves.sha256 (by decide) rfl

end LedgerBabylon
