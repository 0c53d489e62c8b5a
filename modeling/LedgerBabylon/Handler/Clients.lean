import LedgerBabylon.Handler.Environment

/-!
# Two environments

The device talks to its client through client commands; this is the environment of a real run. The
other environment is a client that knows Merkle trees by their roots and preimages by their hashes,
and answers every request from what it knows.
-/

namespace LedgerBabylon

open Endian

/-- `fpt_der_callback_data_t`: the announced length, the length of the part to keep once it is known,
the array, and whether an error or undefined behaviour occurred. -/
structure DerivationStream where
  totalDataLength : Nat
  outDataLength : Option Nat
  out : Bytes
  failed : Bool
  undefinedBehaviour : Bool

namespace DerivationStream

def toInt (n : Nat) : Int := if n % 2 ^ 32 < 2 ^ 31 then (n % 2 ^ 32 : Nat) else (n % 2 ^ 32 : Nat) - 2 ^ 32

/-- The length of the part after the leaf hashes of a taproot field, computed from the first piece. -/
def tapLength (s : DerivationStream) (data : Bytes) : DerivationStream :=
  match Buffer.readVarint (Memory.ofList data) (Buffer.create 0 data.length) with
  | none => { s with failed := true }
  | some (nHashes, _) =>
    let hashesLen := 32 * toInt nHashes
    let outLen : Int := toInt s.totalDataLength - varintSize nHashes - hashesLen
    if hashesLen < -2 ^ 31 ∨ 2 ^ 31 ≤ hashesLen ∨ 2 ^ 31 ≤ outLen then { s with undefinedBehaviour := true }
    else if outLen < 0 ∨ 4 * (1 + maxBip32PathSteps) < outLen then { s with failed := true }
    else { s with outDataLength := some outLen.toNat }

def setLength (s : DerivationStream) (isTap : Bool) (data : Bytes) : DerivationStream :=
  if s.outDataLength.isSome then s
  else if isTap then s.tapLength data
  else { s with outDataLength := some s.totalDataLength }

/-- Keep the last bytes of what was streamed. Bytes of earlier pieces are moved from one position too
far. -/
def keep (s : DerivationStream) (data : Bytes) : DerivationStream :=
  match s.outDataLength with
  | none => s
  | some n =>
    if s.out.length < n then { s with undefinedBehaviour := true }
    else if n ≤ data.length then { s with out := data.drop (data.length - n) ++ s.out.drop n }
    else if s.out.length ≤ n then { s with undefinedBehaviour := true }
    else
      let d := n - data.length
      { s with out := (s.out.drop (n - d + 1)).take d ++ data ++ s.out.drop n }

def callback (isTap : Bool) (s : DerivationStream) (data : Bytes) : DerivationStream :=
  if s.failed || s.undefinedBehaviour then s
  else
    let s := s.setLength isTap data
    if s.failed || s.undefinedBehaviour then s else s.keep data

end DerivationStream

def leWords : Bytes → List UInt32
  | a :: b :: c :: d :: rest => UInt32.ofNat (leNat [a, b, c, d]) :: leWords rest
  | _ => []

def readFingerprintAndSteps (raw : Bytes) : UInt32 × List UInt32 :=
  (UInt32.ofNat (beNat (raw.take 4)), leWords (raw.drop 4))

def isTapDerivation (keyType : UInt8) : Bool := keyType = 0x16 || keyType = 0x07

def extractBip32Derivation (sha256 : Bytes → Digest) (stack : Bytes) (keyType : UInt8)
    (valuesRoot : Digest) (size index : UInt32) : Cmd (UInt32 × List UInt32) := do
  let (_, s) ← orRet (-1) (callStreamMerkleLeafElement sha256 valuesRoot size index
    (fun len s => { s with totalDataLength := len })
    (fun m data s => s.callback (isTapDerivation keyType) (m.read data.ptr data.size))
    (⟨0, none, stack, false, false⟩ : DerivationStream))
  if s.undefinedBehaviour then throw .undefinedBehaviour
  else do
    let len := s.outDataLength.getD 0
    require (-1) (!s.failed && 4 ≤ len && len % 4 = 0)
    return readFingerprintAndSteps (s.out.take len)

/-- The communication with the client, and the answers that the user is going to give. -/
structure Outside where
  comm : Comm
  user : List Bool

namespace Outside

def command {α : Type} (x : Cmd α) : Ask Outside α := fun o =>
  match x o.comm with
  | .ok a c => .ok a { o with comm := c }
  | .error fault c => .error fault { o with comm := c }

theorem command_ok_iff {α : Type} {x : Cmd α} {a : α} {o o' : Outside} :
    command x o = .ok a o' ↔ ∃ c, x o.comm = .ok a c ∧ o' = { o with comm := c } := by
  unfold command
  cases hx : x o.comm with
  | ok b c => aesop
  | error fault c => simp

def answer : Ask Outside Bool := do
  let o ← get
  set { o with user := o.user.tail }
  return o.user.headD false

def streamedValue (sha256 : Bytes → Digest) (map : MerkleizedMapCommitment) (key : Bytes) :
    Cmd (Nat × Bytes) := do
  let (_, len, data) ← callStreamMerkleizedMapValue sha256 map key (fun len s => (len, s.2))
    (fun m data s => (s.1, s.2 ++ m.read data.cur (data.size - data.offset))) ((0, []) : Nat × Bytes)
  return (len, data)

/-- The previous output; a script that is too long for its array is copied all the same. -/
def prevout (sha256 : Bytes → Digest) (uninitialised : TxidParserOutputs)
    (map : MerkleizedMapCommitment) (key : Bytes) (outputIndex : UInt32) : Cmd Prevout := do
  let (outputs, txid) ← callPsbtParseRawtx sha256 map key (DerivationStream.toInt outputIndex.toNat)
    uninitialised
  let len := outputs.voutScriptpubkeyLen.toNat
  if maxPrevoutScriptpubkeyLen < len then throw .undefinedBehaviour
  else return ⟨UInt64.ofNat outputs.voutValue, outputs.voutScriptpubkey.read 0 len, txid⟩

def yieldResponse (response : Bytes) : Cmd Unit := do
  setResponse response SW_INTERRUPTED_EXECUTION
  processInterruption

def sendStatusWord (sw : Nat) : Option Nat → Cmd Unit
  | none => sendSw sw
  | some ec => do
    addToResponse (beBytes 2 ec)
    finalizeResponse sw
    sendResponse

end Outside

open Outside in
/-- The client commands as an environment, for given contents of memory that is not initialised and a
storage of MuSig2 sessions. -/
def Environment.wire (sha256 : Bytes → Digest) (uninitialised : TxidParserOutputs)
    (stack : Bytes) (musigRound2 : Digest → Ask Outside (Option Bytes)) :
    Environment Outside where
  preimage hash outLen := command (callGetPreimage sha256 hash outLen)
  leafElement root size index outLen := command (callGetMerkleLeafElement sha256 root size index outLen)
  mapValue map key outLen := command (callGetMerkleizedMapValue sha256 map key outLen)
  streamMapValue map key := command (streamedValue sha256 map key)
  rawtx map key outputIndex := command (prevout sha256 uninitialised map key outputIndex)
  bip32Derivation keyType valuesRoot size index :=
    command (extractBip32Derivation sha256 stack keyType valuesRoot size index)
  yield response := command (yieldResponse response)
  sendSw sw ec := command (sendStatusWord sw ec)
  confirm _ := answer
  musigRound2 := musigRound2

structure KnownData where
  /-- the elements of Merkle trees, by root -/
  trees : List (Digest × List Bytes)
  preimages : List (Digest × Bytes)

namespace KnownData

variable (known : KnownData)

def element (root : Digest) (size index : UInt32) : Option Bytes := do
  let elements ← known.trees.lookup root
  if index < size then elements[index.toNat]? else none

def keyIndex (map : MerkleizedMapCommitment) (key : Bytes) : Option UInt32 := do
  let keys ← known.trees.lookup map.keysRoot
  let index := UInt32.ofNat (keys.idxOf key)
  if known.element map.keysRoot (UInt32.ofNat map.size) index = some key then some index else none

def value (map : MerkleizedMapCommitment) (key : Bytes) : Option Bytes := do
  let index ← known.keyIndex map key
  known.element map.valuesRoot (UInt32.ofNat map.size) index

end KnownData

def answerWith {α : Type} (known : Option Bytes) (outLen : Nat) (f : Bytes → α) : Ask (List Bool) α :=
  match known with
  | none => throw (.ret (-1))
  | some data => if outLen < data.length then throw (.ret (-4)) else return f data

def parsePrevout (sha256 : Bytes → Digest) (outputIndex : UInt32) (tx : Bytes) : Option Prevout :=
  let flow := cbProcessData (rawtxFlowInit (DerivationStream.toInt outputIndex.toNat) ⟨0, 0, fun _ => 0⟩) tx
  let t := flow.state.2
  if flow.failed then none
  else some ⟨UInt64.ofNat t.outputs.voutValue,
    t.outputs.voutScriptpubkey.read 0 t.outputs.voutScriptpubkeyLen.toNat,
    sha256 (sha256 t.hashed).bytes⟩

def derivationPart (keyType : UInt8) (raw : Bytes) : Bytes :=
  if isTapDerivation keyType then raw.drop (1 + 32 * (raw.headD 0).toNat) else raw

/-- An environment that answers from known data; its state is what the user is going to answer. -/
def Environment.known (sha256 : Bytes → Digest) (known : KnownData) : Environment (List Bool) where
  preimage hash outLen := answerWith (known.preimages.lookup hash) outLen fun data => (data.length, data)
  leafElement root size index outLen := answerWith (known.element root size index) outLen id
  mapValue map key outLen := answerWith (known.value map key) outLen id
  streamMapValue map key :=
    match known.value map key with
    | none => throw (.ret (-1))
    | some data => return (data.length, data)
  rawtx map key outputIndex :=
    match (known.value map key).bind (parsePrevout sha256 outputIndex) with
    | none => throw (.ret (-1))
    | some prevout => return prevout
  bip32Derivation keyType valuesRoot size index :=
    match known.element valuesRoot size index with
    | none => throw (.ret (-1))
    | some raw => return readFingerprintAndSteps (derivationPart keyType raw)
  yield _ := return ()
  sendSw _ _ := return ()
  confirm _ := do
    let answers ← get
    set answers.tail
    return answers.headD false
  musigRound2 _ := return none

theorem Environment.leafElement_known (sha256 : Bytes → Digest) {known : KnownData} {root : Digest}
    {size index : UInt32} {outLen : Nat} {element : Bytes} (h : known.element root size index = some element)
    (hfits : element.length ≤ outLen) (e : List Bool) :
    (Environment.known sha256 known).leafElement root size index outLen e = .ok element e := by
  simp only [Environment.known, h, answerWith, if_neg (Nat.not_lt.mpr hfits)]
  rfl

end LedgerBabylon
