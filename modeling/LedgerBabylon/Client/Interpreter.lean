import LedgerBabylon.Client.Merkle
import LedgerBabylon.Client.Streams

/-!
# The interpreters of client commands

Before a command a client registers the preimages and the lists that the device may ask for. While the
command runs it answers the requests of the device; what does not fit in an answer waits in a queue. The
three clients register and answer in their own ways. A client that throws, returns an error or panics
gives no answer and leaves its queue as it was.
-/

namespace LedgerBabylon

open Endian

inductive Known where
  | preimage (element : Bytes)
  | list (elements : List Bytes)

structure Pending where
  queue : List Bytes
  yielded : List Bytes
  deriving DecidableEq

def preimageResponse (encode : Nat → Bytes) (s : Pending) (knownPreimage : Bytes) : Bytes × Pending :=
  let preimageLenOut := encode knownPreimage.length
  let maxPayloadSize := 255 - preimageLenOut.length - 1
  let payloadSize := min maxPayloadSize knownPreimage.length
  (preimageLenOut ++ UInt8.ofNat payloadSize :: knownPreimage.take payloadSize,
    { s with queue := s.queue ++ (knownPreimage.drop payloadSize).map ([·]) })

def leafProofResponse (s : Pending) (leaf : Digest) (proof : List Digest) : Bytes × Pending :=
  let nResponseElements := min ((255 - 32 - 1 - 1) / 32) proof.length
  (leaf.bytes ++ UInt8.ofNat proof.length :: UInt8.ofNat nResponseElements ::
      (proof.take nResponseElements).flatMap Digest.bytes,
    { s with queue := s.queue ++ (proof.drop nResponseElements).map Digest.bytes })

def moreElementsResponse (s : Pending) (elementLen : Nat) (elements rest : List Bytes) : Bytes × Pending :=
  (UInt8.ofNat elements.length :: UInt8.ofNat elementLen :: elements.flatten, { s with queue := rest })

def TreeView.leafIndex (mt : TreeView) (leafHash : Bytes) : Option Nat :=
  (List.range mt.size).find? fun i => (mt.get i).any fun leaf => leaf.bytes = leafHash

def readProofRequest (request : Bytes) : Option (Bytes × Nat × Nat × Bytes) := do
  let (root, req) ← readExact 32 request
  let (treeSize, req) ← readVarint req
  let (leafIndex, req) ← readVarint req
  return (root, treeSize, leafIndex, req)

def dispatch (s : Pending) (getPreimage getMerkleLeafProof getMerkleLeafIndex getMoreElements :
    Pending → Bytes → Option (Bytes × Pending)) : Bytes → Option (Bytes × Pending)
  | [] => none
  | code :: request =>
    if code = CCMD_YIELD then some ([], { s with yielded := s.yielded ++ [request] })
    else if code = CCMD_GET_PREIMAGE then getPreimage s request
    else if code = CCMD_GET_MERKLE_LEAF_PROOF then getMerkleLeafProof s request
    else if code = CCMD_GET_MERKLE_LEAF_INDEX then getMerkleLeafIndex s request
    else if code = CCMD_GET_MORE_ELEMENTS then getMoreElements s request
    else none

variable (sha256 : Bytes → Digest)

/-- The dictionaries of the Python and the JavaScript client, with the latest entries first: these hide
earlier ones with the same key. -/
structure Registry (T : Type) where
  preimages : List (Bytes × Bytes)
  trees : List (Bytes × T)

namespace Registry

variable {T : Type} (build : List Digest → Option T) (root : T → Option Digest) (view : T → TreeView)

def addKnownPreimage (i : Registry T) (element : Bytes) : Registry T :=
  { i with preimages := ((sha256 element).bytes, element) :: i.preimages }

def addKnownList (i : Registry T) (elements : List Bytes) : Option (Registry T) := do
  let i := elements.foldl (fun i el => i.addKnownPreimage sha256 (0x00 :: el)) i
  let mt ← build (elements.map (merkleComputeElementHash sha256))
  let mtRoot ← root mt
  return { i with trees := (mtRoot.bytes, mt) :: i.trees }

def add (i : Registry T) : Known → Option (Registry T)
  | .preimage element => some (i.addKnownPreimage sha256 element)
  | .list elements => i.addKnownList sha256 build root elements

def new (known : List Known) : Option (Registry T) := known.foldlM (add sha256 build root) ⟨[], []⟩

def preimage? (i : Registry T) (hash : Bytes) : Option Bytes := i.preimages.lookup hash

def tree? (i : Registry T) (mtRoot : Bytes) : Option TreeView := (i.trees.lookup mtRoot).map view

end Registry

namespace Python

section

variable (preimage? : Bytes → Option Bytes) (tree? : Bytes → Option TreeView)

def getPreimage (s : Pending) (request : Bytes) : Option (Bytes × Pending) := do
  let (first, req) ← readExact 1 request
  if first = [0] then
    let (reqHash, req) ← readExact 32 req
    if req = [] then
      let knownPreimage ← preimage? reqHash
      return preimageResponse varintWrite s knownPreimage
    else none
  else none

def getMerkleLeafProof (s : Pending) (request : Bytes) : Option (Bytes × Pending) := do
  let (root, treeSize, leafIndex, req) ← readProofRequest request
  if req = [] then
    let mt ← tree? root
    if leafIndex ≥ treeSize ∨ mt.size ≠ treeSize ∨ s.queue ≠ [] then none
    else
      let proof ← mt.prove leafIndex
      let leaf ← mt.get leafIndex
      return leafProofResponse s leaf proof
  else none

def getMerkleLeafIndex (s : Pending) (request : Bytes) : Option (Bytes × Pending) := do
  let (root, req) ← readExact 32 request
  let (leafHash, req) ← readExact 32 req
  if req = [] then
    let mt ← tree? root
    match mt.leafIndex leafHash with
    | some leafIndex => return (1 :: varintWrite leafIndex, s)
    | none => return (0 :: varintWrite 0, s)
  else none

def popElements (elementLen : Nat) : Nat → List Bytes → List Bytes × List Bytes
  | _, [] => ([], [])
  | responseLen, el :: queue =>
    if responseLen + elementLen ≤ 253 then
      let (taken, rest) := popElements elementLen (responseLen + el.length) queue
      (el :: taken, rest)
    else ([], el :: queue)

def getMoreElements (s : Pending) (request : Bytes) : Option (Bytes × Pending) :=
  if request ≠ [] then none
  else
    match s.queue with
    | [] => none
    | el :: queue =>
      if (el :: queue).any fun e => e.length ≠ el.length then none
      else
        let (elements, rest) := popElements el.length 0 (el :: queue)
        some (moreElementsResponse s el.length elements rest)

end

abbrev Interpreter := Registry MerkleTree

namespace Interpreter

def new (known : List Known) : Option Interpreter :=
  Registry.new sha256 (MerkleTree.init sha256) MerkleTree.root known

def execute (i : Interpreter) (s : Pending) (request : Bytes) : Option (Bytes × Pending) :=
  dispatch s (getPreimage i.preimage?) (getMerkleLeafProof (i.tree? MerkleTree.view))
    (getMerkleLeafIndex (i.tree? MerkleTree.view)) getMoreElements request

end Interpreter

end Python

namespace JavaScript

section

variable (preimage? : Bytes → Option Bytes) (tree? : Bytes → Option TreeView)

def getPreimage (s : Pending) (request : Bytes) : Option (Bytes × Pending) :=
  if request.length ≠ 1 + 32 then none
  else if request.head? ≠ some 0 then none
  else do
    let knownPreimage ← preimage? (request.drop 1)
    return preimageResponse varintWrite s knownPreimage

def maxSafeInteger : Nat := 2 ^ 53 - 1

/-- `GetMerkleLeafProofCommand.execute`: nobody looks at what is left of the request. -/
def getMerkleLeafProof (s : Pending) (request : Bytes) : Option (Bytes × Pending) :=
  if request.length < 32 + 1 + 1 then none
  else do
    let (root, treeSize, leafIndex, _) ← readProofRequest request
    if treeSize > maxSafeInteger ∨ leafIndex > maxSafeInteger then none
    else
      let mt ← tree? root
      if leafIndex ≥ treeSize ∨ mt.size ≠ treeSize ∨ s.queue ≠ [] then none
      else
        let proof ← mt.prove leafIndex
        let leaf ← mt.get leafIndex
        return leafProofResponse s leaf proof

def getMerkleLeafIndex (s : Pending) (request : Bytes) : Option (Bytes × Pending) :=
  if request.length ≠ 32 + 32 then none
  else do
    let mt ← tree? (request.take 32)
    match mt.leafIndex (request.drop 32) with
    | some leafIndex => return (1 :: varintWrite leafIndex, s)
    | none => return (0 :: varintWrite 0, s)

def getMoreElements (s : Pending) (request : Bytes) : Option (Bytes × Pending) :=
  if request ≠ [] then none
  else
    match s.queue with
    | [] => none
    | el :: queue =>
      if (el :: queue).any fun e => e.length ≠ el.length then none
      else
        let maxElements := if el.length = 0 then (el :: queue).length else 253 / el.length
        let nReturnedElements := min maxElements (el :: queue).length
        some (moreElementsResponse s el.length ((el :: queue).take nReturnedElements)
          ((el :: queue).drop nReturnedElements))

end

abbrev Interpreter := Registry Merkle

namespace Interpreter

def new (known : List Known) : Option Interpreter :=
  Registry.new sha256 (Merkle.new sha256) Merkle.getRoot known

def execute (i : Interpreter) (s : Pending) (request : Bytes) : Option (Bytes × Pending) :=
  dispatch s (getPreimage i.preimage?) (getMerkleLeafProof (i.tree? Merkle.view))
    (getMerkleLeafIndex (i.tree? Merkle.view)) getMoreElements request

end Interpreter

end JavaScript

namespace Rust

section

variable (varInt : VarInt) (preimage? : Bytes → Option Bytes) (tree? : Bytes → Option TreeView)

def getPreimageCommand (s : Pending) (request : Bytes) : Option (Bytes × Pending) :=
  if request.length ≠ 33 ∨ request.head? ≠ some 0 then none
  else do
    let preimage ← preimage? (request.drop 1)
    return preimageResponse varInt.encode s preimage

def getMerkleLeafProof (s : Pending) (request : Bytes) : Option (Bytes × Pending) :=
  if s.queue ≠ [] then none
  else if request.length < 34 then none
  else do
    let (treeSize, rest) ← varInt.decode (request.drop 32)
    let (leafIndex, rest) ← varInt.decode rest
    if rest ≠ [] then none
    else
      let tree ← tree? (request.take 32)
      if leafIndex ≥ treeSize ∨ treeSize ≠ tree.size then none
      else
        let proof ← tree.prove leafIndex
        let leaf ← tree.get leafIndex
        return leafProofResponse s leaf proof

def getMerkleLeafIndex (s : Pending) (request : Bytes) : Option (Bytes × Pending) :=
  if request.length < 64 then none
  else do
    let tree ← tree? (request.take 32)
    let leafIndex ← tree.leafIndex ((request.drop 32).take 32)
    return (1 :: varInt.encode leafIndex, s)

def addElements (elementLength : Nat) : Nat → List Bytes → List Bytes
  | _, [] => []
  | responseLen, element :: queue =>
    if responseLen + elementLength ≤ 253 then
      element :: addElements elementLength (responseLen + element.length) queue
    else addElements elementLength responseLen queue

def getMoreElements (s : Pending) : Option (Bytes × Pending) :=
  match s.queue with
  | [] => none
  | el :: queue =>
    if (el :: queue).any fun e => e.length ≠ el.length then none
    else
      let elements := addElements el.length 0 (el :: queue)
      some (moreElementsResponse s el.length elements ((el :: queue).drop elements.length))

end

structure ClientCommandInterpreter where
  knownPreimages : List (Bytes × Bytes)
  trees : List MerkleTree

namespace ClientCommandInterpreter

def addKnownPreimage (i : ClientCommandInterpreter) (element : Bytes) : ClientCommandInterpreter :=
  { i with knownPreimages := i.knownPreimages ++ [((sha256 element).bytes, element)] }

def addKnownList (i : ClientCommandInterpreter) (elements : List Bytes) :
    Option ClientCommandInterpreter := do
  let i := elements.foldl (fun i el => i.addKnownPreimage sha256 (0x00 :: el)) i
  let tree ← MerkleTree.new sha256 (elements.map (merkleComputeElementHash sha256))
  return { i with trees := i.trees ++ [tree] }

def add (i : ClientCommandInterpreter) : Known → Option ClientCommandInterpreter
  | .preimage element => some (i.addKnownPreimage sha256 element)
  | .list elements => i.addKnownList sha256 elements

def new (known : List Known) : Option ClientCommandInterpreter := known.foldlM (add sha256) ⟨[], []⟩

def preimage? (i : ClientCommandInterpreter) (hash : Bytes) : Option Bytes := i.knownPreimages.lookup hash

def tree? (i : ClientCommandInterpreter) (root : Bytes) : Option TreeView :=
  (i.trees.find? fun tree => tree.rootHash.any fun hash => hash.bytes = root).map (·.view)

def execute (varInt : VarInt) (i : ClientCommandInterpreter) (s : Pending) (request : Bytes) :
    Option (Bytes × Pending) :=
  dispatch s (getPreimageCommand varInt i.preimage?) (getMerkleLeafProof varInt i.tree?)
    (getMerkleLeafIndex varInt i.tree?) (fun s _ => getMoreElements s) request

end ClientCommandInterpreter

end Rust

def answers (execute : Pending → Bytes → Option (Bytes × Pending)) :
    Pending → List Bytes → List (Option Bytes × Pending)
  | _, [] => []
  | s, request :: requests =>
    match execute s request with
    | none => (none, s) :: answers execute s requests
    | some (response, s') => (some response, s') :: answers execute s' requests

end LedgerBabylon
