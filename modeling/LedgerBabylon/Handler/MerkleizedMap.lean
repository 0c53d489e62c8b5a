import LedgerBabylon.Handler.MerkleLeafHash
import LedgerBabylon.Handler.Preimage

/-!
# Elements of Merkle trees and values of merkleized maps

A map is committed to as the Merkle root of its sorted keys and the Merkle root of their values. A
value is found through the index of its key, which the client looks up and the device checks against
the keys' root.
-/

namespace LedgerBabylon

open Endian

variable {τ : Type} (sha256 : Bytes → Digest)

structure MerkleizedMapCommitment where
  size : Nat
  keysRoot : Digest
  valuesRoot : Digest
  deriving DecidableEq

/-- `call_get_merkle_leaf_index`: the client's 64-bit index is truncated for the proof and for the
caller, where a negative `int` is an error. -/
def callGetMerkleLeafIndex (size : UInt32) (root leafHash : Digest) : Cmd UInt32 := do
  setResponse (CCMD_GET_MERKLE_LEAF_INDEX :: root.bytes ++ leafHash.bytes) SW_INTERRUPTED_EXECUTION
  orRet (-3) processInterruption
  let found ← readOr (-1) Buffer.readU8
  let index ← readOr (-1) Buffer.readVarint
  require (-2) (found = 0 || found = 1)
  require (-3) (found ≠ 0)
  let returned ← orRet (-4) (callGetMerkleLeafHash sha256 size (UInt32.ofNat index) root)
  require (-5) (leafHash = returned)
  returnInt index
  return UInt32.ofNat index

def callGetMerkleLeafElement (merkleRoot : Digest) (treeSize leafIndex : UInt32) (outLen : Nat) :
    Cmd Bytes := do
  let leafHash ← callGetMerkleLeafHash sha256 treeSize leafIndex merkleRoot
  callGetMerklePreimage sha256 leafHash outLen

def callStreamMerkleLeafElement (merkleRoot : Digest) (treeSize leafIndex : UInt32)
    (lenCallback : Nat → τ → τ) (callback : Memory → Buffer → τ → τ) (t : τ) : Cmd (Nat × τ) := do
  let leafHash ← callGetMerkleLeafHash sha256 treeSize leafIndex merkleRoot
  callStreamPreimage sha256 leafHash lenCallback callback t

section

variable (map : MerkleizedMapCommitment) (key : Bytes)

def merkleizedMapIndex : Cmd UInt32 :=
  orRet (-1) (callGetMerkleLeafIndex sha256 (UInt32.ofNat map.size) map.keysRoot
    (merkleComputeElementHash sha256 key))

def callGetMerkleizedMapValueHash : Cmd Digest := do
  let index ← merkleizedMapIndex sha256 map key
  callGetMerkleLeafHash sha256 (UInt32.ofNat map.size) index map.valuesRoot

def callGetMerkleizedMapValue (outLen : Nat) : Cmd Bytes := do
  let index ← merkleizedMapIndex sha256 map key
  callGetMerkleLeafElement sha256 map.valuesRoot (UInt32.ofNat map.size) index outLen

def callStreamMerkleizedMapValue (lenCallback : Nat → τ → τ) (callback : Memory → Buffer → τ → τ)
    (t : τ) : Cmd (Nat × τ) := do
  let index ← merkleizedMapIndex sha256 map key
  callStreamMerkleLeafElement sha256 map.valuesRoot (UInt32.ofNat map.size) index lenCallback callback t

end

/-- `compare_byte_arrays(a, b) < 0`: strict lexicographic order, a proper initial part first. -/
def byteArrayLt : Bytes → Bytes → Bool
  | _, [] => false
  | [], _ :: _ => true
  | a :: as, b :: bs => a < b || (a = b && byteArrayLt as bs)

/-- `MAX_CHECK_MERKLE_TREE_SORTED_PREIMAGE_SIZE`, with taptrees of depth at most 9. -/
def maxCheckMerkleTreeSortedPreimageSize : Nat := 34 + 32 * (9 - 1)

def readMapCommitment (raw : Bytes) : Option MerkleizedMapCommitment := do
  let m := Memory.ofList raw
  let (size, b) ← Buffer.readVarint m (Buffer.create 0 raw.length)
  let (keysRoot, b) ← b.take 32 (Digest.ofMemory m)
  let (valuesRoot, _) ← b.take 32 (Digest.ofMemory m)
  return ⟨size, keysRoot, valuesRoot⟩

end LedgerBabylon
