import LedgerBabylon.Handler.Fetch

/-!
# The state of a signing run

A run reads the request and the wallet policy once; what it reads then stays fixed. The rest of its
state changes as inputs, outputs and keys are processed. A run also leaves a trace of what can be
observed of it: the screens with the user's answers, the yielded signatures, the status words, and
what the flow found out about the policy and the inputs.
-/

namespace LedgerBabylon

open Endian Exec

-- the key types of PSBT fields that the signing flow reads
def PSBT_GLOBAL_TX_VERSION : UInt8 := 0x02
def PSBT_GLOBAL_FALLBACK_LOCKTIME : UInt8 := 0x03
def PSBT_IN_NON_WITNESS_UTXO : UInt8 := 0x00
def PSBT_IN_WITNESS_UTXO : UInt8 := 0x01
def PSBT_IN_SIGHASH_TYPE : UInt8 := 0x03
def PSBT_IN_REDEEM_SCRIPT : UInt8 := 0x04
def PSBT_IN_WITNESS_SCRIPT : UInt8 := 0x05
def PSBT_IN_BIP32_DERIVATION : UInt8 := 0x06
def PSBT_IN_PREVIOUS_TXID : UInt8 := 0x0E
def PSBT_IN_OUTPUT_INDEX : UInt8 := 0x0F
def PSBT_IN_SEQUENCE : UInt8 := 0x10
def PSBT_IN_TAP_BIP32_DERIVATION : UInt8 := 0x16
def PSBT_IN_MUSIG2_PUB_NONCE : UInt8 := 0x1B
def PSBT_OUT_BIP32_DERIVATION : UInt8 := 0x02
def PSBT_OUT_AMOUNT : UInt8 := 0x03
def PSBT_OUT_SCRIPT : UInt8 := 0x04
def PSBT_OUT_TAP_BIP32_DERIVATION : UInt8 := 0x07

def SIGHASH_DEFAULT : UInt32 := 0x00
def SIGHASH_ALL : UInt32 := 0x01
def SIGHASH_NONE : UInt32 := 0x02
def SIGHASH_SINGLE : UInt32 := 0x03
def SIGHASH_ANYONECANPAY : UInt32 := 0x80

def maxOutputScriptPubKeyLen : Nat := 83
def maxNInputsCanSign : Nat := 512
def maxNOutputsCanSign : Nat := 512
def maxInternalKeyExpressions : Nat := 8
def maxWalletPolicySerializedLength : Nat := 148

structure KeyexprInfo where
  keyExpr : KeyExpr
  index : Nat
  fingerprint : UInt32
  toSign : Bool
  keyDerivation : List UInt32
  psbtRootKeyDerivationLength : Nat
  pubkey : ExtPubkey
  internalPubkey : ExtPubkey
  isTapscript : Bool
  tapleaf : Option PolicyNode
  tapleafHash : Bytes

def KeyexprInfo.zero : KeyexprInfo where
  keyExpr := ⟨0, 0, .normal 0, 0⟩
  index := 0
  fingerprint := 0
  toSign := false
  keyDerivation := []
  psbtRootKeyDerivationLength := 0
  pubkey := .zero
  internalPubkey := .zero
  isTapscript := false
  tapleaf := none
  tapleafHash := List.replicate 32 0

/-- What a leaf hash marker asks for: `BBN_LEAF_HASH_DISPALY` or `BBN_LEAF_HASH_CHECK`. -/
inductive LeafhashKind where
  | display
  | check
  deriving DecidableEq, Repr

structure OutputsInfo where
  totalAmount : UInt64
  changeTotalAmount : UInt64
  nChange : Nat
  /-- scripts and amounts of the first external outputs -/
  cached : List (Bytes × UInt64)

structure SignPsbtState where
  internalKeyExpressions : List KeyexprInfo
  inputsTotalAmount : UInt64
  nExternalInputs : Nat
  nExternalOutputs : Nat
  hasMusig2PubNonces : Bool
  outputs : OutputsInfo
  warnings : Warnings
  psbtLeafhash : Option (LeafhashKind × Bytes)
  psbtFinalityPk : Option Bytes

def SignPsbtState.zero : SignPsbtState where
  internalKeyExpressions := []
  inputsTotalAmount := 0
  nExternalInputs := 0
  nExternalOutputs := 0
  hasMusig2PubNonces := false
  outputs := ⟨0, 0, 0, []⟩
  warnings := ⟨false, false, false⟩
  psbtLeafhash := none
  psbtFinalityPk := none

/-- The part of `sign_psbt_state_t` that `init_global_state` sets once and for all. -/
structure GlobalState where
  protocolVersion : Nat
  masterKeyFingerprint : UInt32
  txVersion : UInt32
  locktime : UInt32
  nInputs : Nat
  inputsRoot : Digest
  nOutputs : Nat
  outputsRoot : Digest
  header : PolicyMapWalletHeader
  policy : PolicyNode

inductive SignatureKind where
  | ecdsa
  | schnorr
  | musigPartial
  deriving DecidableEq, Repr

structure Sighash where
  message : Bytes
  hash : Bytes
  deriving DecidableEq, Repr

/-- A yielded signature: the input, the key expression and the address, the signature hash and its type,
the path of the key, and the hash of the tapleaf if one is spent. -/
structure Signature where
  kind : SignatureKind
  input : Nat
  keyexpr : Nat
  isChange : Bool
  addressIndex : UInt32
  sighashType : UInt32
  sighash : Sighash
  path : List UInt32
  leaf : Option Bytes
  deriving DecidableEq, Repr

structure OutputRead where
  amount : UInt64
  script : Except Int Bytes
  isInternal : Bool
  addressIndex : UInt32
  deriving DecidableEq

inductive Event where
  | policyRead (name template : Bytes)
  | finalityPkRead (pk : Bytes)
  | leafhashRead (kind : LeafhashKind) (leafhash : Bytes)
  | inputAmount (amount : UInt64)
  | classified (input : Nat) (isInternal : Bool)
  | sighashAccepted (input : Nat) (type : Option UInt32)
  | outputAmount (amount : UInt64)
  | outputRead (output : OutputRead)
  | outputsHashed (outputs : Bytes)
  | shown (screen : Screen) (warnings : Warnings) (accepted : Bool)
  | signed (signature : Signature)
  | statusWord (sw : Nat) (ec : Option Nat)
  deriving DecidableEq

structure World (σ : Type) where
  session : Session σ
  st : SignPsbtState
  trace : List Event

inductive Abort where
  | stopped
  | fault (f : Fault)
  deriving DecidableEq, Repr

abbrev Sign (σ : Type) := EStateM Abort (World σ)

variable {σ τ α : Type}

variable (dev : Device σ)

def record (e : Event) : Sign σ Unit := modify fun w => { w with trace := w.trace ++ [e] }

def getSt : Sign σ SignPsbtState := do
  return (← get).st

def modifySt (f : SignPsbtState → SignPsbtState) : Sign σ Unit := modify fun w => { w with st := f w.st }

def callIgnored (x : Ask σ α) : Sign σ (Option α) := fun w =>
  match x w.session.env with
  | .ok a e => .ok (some a) { w with session := { w.session with env := e } }
  | .error (.ret _) e => .ok none { w with session := { w.session with env := e } }
  | .error fault e => .error (.fault fault) { w with session := { w.session with env := e } }

def sendStatus (sw : Nat) (ec : Option Nat) : Sign σ Unit := do
  let _ ← callIgnored (dev.env.sendSw sw ec)
  record (.statusWord sw ec)

def abort : Failure → Sign σ α
  | .status sw ec => do
    sendStatus dev sw ec
    throw .stopped
  | .silent => throw .stopped
  | .fault f => throw (.fault f)

def fetch (x : Fetch σ α) : Sign σ α := fun w =>
  match x w.session with
  | .ok a s => .ok a { w with session := s }
  | .error failure s => abort dev failure { w with session := s }

/-- Show a screen; the user's answer is recorded together with the warnings of this moment. -/
def confirm (screen : Screen) : Sign σ Bool := do
  let answer ← callIgnored (dev.env.confirm screen)
  let w ← get
  record (.shown screen w.st.warnings (answer.getD false))
  return answer.getD false

def confirmOrDeny (screen : Screen) : Sign σ Unit := do
  let accepted ← confirm dev screen
  fetch dev (checkOr SW_DENY accepted)

def callGetMerkleizedMapWithCallback (root : Digest) (size index : Nat)
    (callback : MerkleizedMapCommitment → Nat → Bytes → τ → Sign σ τ) (t : τ) :
    Sign σ (Option (MerkleizedMapCommitment × τ)) := do
  match ← fetch dev (fetchMapCommitment dev root size index) with
  | none => return none
  | some map => do
    let size := map.size % 2 ^ 32
    let t ← checkSortedLoop (fun i => fetch dev (sortedElement dev map.keysRoot size i))
      (callback map) size 0 [] t
    return t.map fun t => (map, t)

structure SignPsbtRequest where
  globalMap : MerkleizedMapCommitment
  nInputs : Nat
  inputsRoot : Digest
  nOutputs : Nat
  outputsRoot : Digest
  walletId : Digest
  walletHmac : Digest

def readRequestInputs (m : Memory) (b : Buffer) :
    Option ((MerkleizedMapCommitment × Nat × Digest) × Buffer) := do
  let (size, b) ← b.readVarint m
  let (keysRoot, b) ← b.take 32 (Digest.ofMemory m)
  let (valuesRoot, b) ← b.take 32 (Digest.ofMemory m)
  let (nInputs, b) ← b.readVarint m
  let (inputsRoot, b) ← b.take 32 (Digest.ofMemory m)
  return ((⟨size, keysRoot, valuesRoot⟩, nInputs, inputsRoot), b)

def readRequestOutputs (m : Memory) (b : Buffer) : Option (Nat × Digest × Digest × Digest) := do
  let (nOutputs, b) ← b.readVarint m
  let (outputsRoot, b) ← b.take 32 (Digest.ofMemory m)
  let (walletId, b) ← b.take 32 (Digest.ofMemory m)
  let (walletHmac, _) ← b.take 32 (Digest.ofMemory m)
  return (nOutputs, outputsRoot, walletId, walletHmac)

def readSignPsbtRequest (raw : Bytes) : Except Nat SignPsbtRequest :=
  let m := Memory.ofList raw
  match readRequestInputs m (Buffer.create 0 raw.length) with
  | none => .error SW_WRONG_DATA_LENGTH
  | some ((globalMap, nInputs, inputsRoot), b) =>
    if maxNInputsCanSign < nInputs then .error SW_NOT_SUPPORTED
    else
      match readRequestOutputs m b with
      | none => .error SW_WRONG_DATA_LENGTH
      | some (nOutputs, outputsRoot, walletId, walletHmac) =>
        .ok ⟨globalMap, nInputs, inputsRoot, nOutputs % 2 ^ 32, outputsRoot, walletId, walletHmac⟩

def readGlobalMap (globalMap : MerkleizedMapCommitment) : Fetch σ (UInt32 × UInt32) := do
  let sorted ← callCheckMerkleTreeSorted dev globalMap.keysRoot globalMap.size
  someOr SW_INCORRECT_DATA sorted
  let version ← call (dev.env.mapValue globalMap [PSBT_GLOBAL_TX_VERSION] 9)
  let version ← okOr SW_INCORRECT_DATA version
  checkOr SW_INCORRECT_DATA (version.length = 4)
  match ← call (dev.env.mapValue globalMap [PSBT_GLOBAL_FALLBACK_LOCKTIME] 9) with
  | .error code =>
    if code = -1 then return (UInt32.ofNat (leNat version), 0) else fail SW_INCORRECT_DATA
  | .ok locktime => do
    checkOr SW_INCORRECT_DATA (locktime.length = 4)
    return (UInt32.ofNat (leNat version), UInt32.ofNat (leNat locktime))

/-- The serialized policy. Its length is the announced one: behind the bytes that were written is what
was in memory before. -/
def fetchWalletPolicy (walletId : Digest) : Fetch σ WalletPolicy := do
  let fetched ← call (dev.env.preimage walletId maxWalletPolicySerializedLength)
  let (len, raw) ← okOr SW_INCORRECT_DATA fetched
  let wallet ← query (readAndParseWalletPolicy dev ((dev.policyMemory.write 0 raw).read 0 len))
  okOr SW_INCORRECT_DATA wallet

def initGlobalState (protocolVersion : Nat) (req : SignPsbtRequest) : Sign σ GlobalState := do
  let (txVersion, locktime) ← fetch dev (readGlobalMap dev req.globalMap)
  let wallet ← fetch dev (fetchWalletPolicy dev req.walletId)
  record (.policyRead wallet.header.name wallet.template)
  let masterKeyFingerprint ← fetch dev (masterFingerprint dev)
  return ⟨protocolVersion, masterKeyFingerprint, txVersion, locktime, req.nInputs, req.inputsRoot,
    req.nOutputs, req.outputsRoot, wallet.header, dev.asRead wallet.policy⟩

end LedgerBabylon
