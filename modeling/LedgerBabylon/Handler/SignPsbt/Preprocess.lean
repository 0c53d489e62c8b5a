import LedgerBabylon.Handler.SignPsbt.KeyExpressions

/-!
# Preprocessing inputs and outputs

Each input and output is read once before anything is shown to the user: its amount is added up, and
it is classified as internal or external by comparing its script with the wallet's. Only internal
inputs have their sighash type checked.
-/

namespace LedgerBabylon

open Endian Exec

variable {σ : Type} (dev : Device σ) (g : GlobalState)

structure AmountScript where
  amount : UInt64
  scriptPubKey : Bytes
  deriving DecidableEq

/-- `get_amount_scriptpubkey_from_psbt_nonwitness`; there is no result if it fails. -/
def getAmountScriptpubkeyFromPsbtNonwitness (map : MerkleizedMapCommitment)
    (expectedPrevoutHash : Option Bytes) : Fetch σ (Option AmountScript) := do
  match ← call (dev.env.mapValueU32Le map [PSBT_IN_OUTPUT_INDEX]) with
  | .error _ => return none
  | .ok prevoutN =>
    match ← call (dev.env.rawtx map [PSBT_IN_NON_WITNESS_UTXO] prevoutN) with
    | .error _ => return none
    | .ok prevout =>
      if expectedPrevoutHash.all (· = prevout.txid.bytes) then
        return some ⟨prevout.value, prevout.scriptPubKey⟩
      else return none

def getAmountScriptpubkeyFromPsbtWitness (map : MerkleizedMapCommitment) : Fetch σ (Option AmountScript) := do
  match ← call (dev.env.mapValue map [PSBT_IN_WITNESS_UTXO] (8 + 1 + maxPrevoutScriptpubkeyLen)) with
  | .error _ => return none
  | .ok raw =>
    if raw.length = 8 + 1 + (raw.getD 8 0).toNat ∧ 9 ≤ raw.length then
      return some ⟨UInt64.ofNat (leNat (raw.take 8)), raw.drop 9⟩
    else return none

def getAmountScriptpubkeyFromPsbt (map : MerkleizedMapCommitment) : Fetch σ (Option AmountScript) := do
  match ← getAmountScriptpubkeyFromPsbtWitness dev map with
  | some result => return some result
  | none => getAmountScriptpubkeyFromPsbtNonwitness dev map none

structure InputInfo where
  inOut : InOutInfo
  hasWitnessUtxo : Bool
  hasNonWitnessUtxo : Bool
  hasRedeemScript : Bool
  hasSighashType : Bool
  prevoutAmount : UInt64
  sighashType : UInt32

def InputInfo.zero : InputInfo := ⟨.zero, false, false, false, false, 0, 0⟩

/-- Every key expression that the derivation fits is to be signed for; the last one gives the
address. -/
def noteInputDerivation (input : InputInfo) (info : DerivationInfo) : Sign σ InputInfo := do
  let st ← getSt
  let keys := st.internalKeyExpressions
  modifySt fun st => { st with
    internalKeyExpressions := keys.map fun key =>
      if isKeyexprCompatible key info then { key with toSign := true } else key }
  return { input with
    inOut := keys.foldl (fun inOut key =>
      if isKeyexprCompatible key info then inOut.found key info else inOut) input.inOut }

def InputInfo.noteKeyType (input : InputInfo) (keyType : UInt8) : InputInfo :=
  if keyType = PSBT_IN_WITNESS_UTXO then { input with hasWitnessUtxo := true }
  else if keyType = PSBT_IN_NON_WITNESS_UTXO then { input with hasNonWitnessUtxo := true }
  else if keyType = PSBT_IN_REDEEM_SCRIPT then { input with hasRedeemScript := true }
  else if keyType = PSBT_IN_SIGHASH_TYPE then { input with hasSighashType := true }
  else input

def inputKeysCallback (map : MerkleizedMapCommitment) (index : Nat) (key : Bytes)
    (input : InputInfo) : Sign σ InputInfo :=
  match key with
  | [] => return input
  | keyType :: data =>
    if keyType = PSBT_IN_BIP32_DERIVATION ∨ keyType = PSBT_IN_TAP_BIP32_DERIVATION then do
      match ← fetch dev (readDerivation dev keyType data map index) with
      | .error _ => return { input with inOut := { input.inOut with unexpectedPubkeyError := true } }
      | .ok none => return input
      | .ok (some info) => noteInputDerivation input info
    else if keyType = PSBT_IN_MUSIG2_PUB_NONCE then do
      modifySt fun st => { st with hasMusig2PubNonces := true }
      return input
    else return input.noteKeyType keyType

def readInput (index : Nat) : Sign σ (Option (MerkleizedMapCommitment × InputInfo)) :=
  callGetMerkleizedMapWithCallback dev g.inputsRoot g.nInputs index (inputKeysCallback dev) .zero

def addInputAmount (amount : UInt64) : Sign σ Unit := do
  modifySt fun st => { st with inputsTotalAmount := st.inputsTotalAmount + amount }
  record (.inputAmount amount)

/-- The expected transaction id. One that is too short is compared with uninitialised bytes. -/
def readPreviousTxid (map : MerkleizedMapCommitment) : Fetch σ Bytes := do
  let txid ← call (dev.env.mapValue map [PSBT_IN_PREVIOUS_TXID] 32)
  let txid ← okOr 0xC004 txid
  if txid.length = 32 then return txid else undefinedBehaviour

def readNonWitnessUtxo (map : MerkleizedMapCommitment) : Fetch σ AmountScript := do
  let txid ← readPreviousTxid dev map
  match ← getAmountScriptpubkeyFromPsbtNonwitness dev map (some txid) with
  | none => failEc 0xC005 0x0004
  | some utxo => return utxo

def InputInfo.withUtxo (input : InputInfo) (utxo : AmountScript) : InputInfo :=
  { input with
    prevoutAmount := utxo.amount
    inOut := { input.inOut with scriptPubKey := utxo.scriptPubKey } }

def checkNonWitnessUtxo (map : MerkleizedMapCommitment) (input : InputInfo) : Sign σ InputInfo :=
  if input.hasNonWitnessUtxo then do
    let utxo ← fetch dev (readNonWitnessUtxo dev map)
    addInputAmount utxo.amount
    return input.withUtxo utxo
  else return input

def readWitnessUtxo (map : MerkleizedMapCommitment) (input : InputInfo) : Fetch σ AmountScript := do
  let utxo ← getAmountScriptpubkeyFromPsbtWitness dev map
  let utxo ← someOr SW_INCORRECT_DATA utxo
  if input.hasNonWitnessUtxo ∧
      ¬(input.inOut.scriptPubKey = utxo.scriptPubKey ∧ input.prevoutAmount = utxo.amount) then
    failEc 0xC006 0x0005
  else return utxo

def checkWitnessUtxo (map : MerkleizedMapCommitment) (input : InputInfo) : Sign σ InputInfo :=
  if input.hasWitnessUtxo then do
    let utxo ← fetch dev (readWitnessUtxo dev map input)
    if input.hasNonWitnessUtxo then return input
    else do
      addInputAmount utxo.amount
      return input.withUtxo utxo
  else return input

def warnMissingNonwitnessutxo (segwitVersion : Int) (input : InputInfo) : Sign σ Unit :=
  if segwitVersion = 0 && !input.hasNonWitnessUtxo then
    modifySt fun st => { st with warnings := { st.warnings with missingNonwitnessutxo := true } }
  else pure ()

/-- The utxos that the kind of wallet needs: the non-witness utxo alone for a legacy wallet, the
witness utxo for segwit. -/
def checkUtxosForWallet (segwitVersion : Int) (input : InputInfo) : Fetch σ Unit :=
  if segwitVersion = -1 then
    if !input.hasNonWitnessUtxo || input.hasWitnessUtxo then failEc 0xC007 0x0006 else pure ()
  else if !input.hasWitnessUtxo then failEc 0xC008 0x0007
  else pure ()

def isPlainSighashType (segwitVersion : Int) (type : UInt32) : Bool :=
  (0 < segwitVersion && type = SIGHASH_DEFAULT) || type = SIGHASH_ALL

def isWarnedSighashType (segwitVersion : Int) (type : UInt32) : Bool := 0 ≤ segwitVersion &&
  (type = SIGHASH_NONE || type = SIGHASH_SINGLE || type = SIGHASH_ANYONECANPAY ||| SIGHASH_ALL ||
    type = SIGHASH_ANYONECANPAY ||| SIGHASH_NONE || type = SIGHASH_ANYONECANPAY ||| SIGHASH_SINGLE)

def admitSighashType (segwitVersion : Int) (type : UInt32) : Sign σ Unit :=
  if isPlainSighashType segwitVersion type then pure ()
  else if isWarnedSighashType segwitVersion type then
    modifySt fun st => { st with warnings := { st.warnings with nonDefaultSighash := true } }
  else fetch dev (fail 0xC00A)

def checkSingle (type : UInt32) (index : Nat) : Fetch σ Unit :=
  if type &&& SIGHASH_SINGLE = SIGHASH_SINGLE ∧ g.nOutputs ≤ index then failEc 0xC00B 0x0008
  else pure ()

def checkSighashType (segwitVersion : Int) (map : MerkleizedMapCommitment) (index : Nat)
    (input : InputInfo) : Sign σ Unit :=
  if input.hasSighashType then do
    let type ← fetch dev (call (dev.env.mapValueU32Le map [PSBT_IN_SIGHASH_TYPE]))
    let type ← fetch dev (okOr 0xC009 type)
    admitSighashType dev segwitVersion type
    fetch dev (checkSingle g type index)
    record (.sighashAccepted index (some type))
  else record (.sighashAccepted index none)

def finishInput (map : MerkleizedMapCommitment) (index : Nat) (input : InputInfo)
    (isInternal : Bool) : Sign σ Unit := do
  record (.classified index isInternal)
  if isInternal then
    warnMissingNonwitnessutxo (getPolicySegwitVersion g.policy) input
    fetch dev (checkUtxosForWallet (getPolicySegwitVersion g.policy) input)
    checkSighashType dev g (getPolicySegwitVersion g.policy) map index input
  else modifySt fun st => { st with nExternalInputs := st.nExternalInputs + 1 }

def checkInput (input : InputInfo) : Fetch σ Unit := do
  checkOr 0xC002 (!input.inOut.unexpectedPubkeyError)
  if !input.hasNonWitnessUtxo && !input.hasWitnessUtxo then failEc 0xC003 0x0003

def preprocessInput (index : Nat) : Sign σ Unit := do
  let read ← readInput dev g index
  let (map, input) ← fetch dev (someOr 0xC001 read)
  fetch dev (checkInput input)
  let input ← checkNonWitnessUtxo dev map input
  let input ← checkWitnessUtxo dev map input
  let isInternal ← fetch dev (isInOutInternal dev g input.inOut true)
  let isInternal ← fetch dev (okOr 0xC007 isInternal)
  finishInput dev g map index input isInternal

def forIndices (body : Nat → Sign σ Unit) : Nat → Nat → Sign σ Unit
  | 0, _ => return ()
  | n + 1, index => do
    body index
    forIndices body n (index + 1)

def preprocessInputs : Sign σ Unit := do
  fillInternalKeyExpressions dev g
  forIndices (preprocessInput dev g) g.nInputs 0

def outputKeysCallback (map : MerkleizedMapCommitment) (index : Nat) (key : Bytes)
    (inOut : InOutInfo) : Sign σ InOutInfo :=
  match key with
  | [] => return inOut
  | keyType :: data =>
    if (keyType = PSBT_OUT_BIP32_DERIVATION ∨ keyType = PSBT_OUT_TAP_BIP32_DERIVATION) ∧
        !inOut.keyExpressionFound then do
      match ← fetch dev (readDerivation dev keyType data map index) with
      | .error _ => return { inOut with unexpectedPubkeyError := true }
      | .ok none => return inOut
      | .ok (some info) => do
        let st ← getSt
        match st.internalKeyExpressions.find? (isKeyexprCompatible · info) with
        | none => return inOut
        | some key => return inOut.found key info
    else return inOut

/-- The script of an output. Of the errors of the fetch only -1 is checked; any other is taken for a
length. -/
def readOutputScript (map : MerkleizedMapCommitment) (sw : Nat) : Fetch σ (Except Int Bytes) := do
  match ← call (dev.env.mapValue map [PSBT_OUT_SCRIPT] maxOutputScriptPubKeyLen) with
  | .ok script => return .ok script
  | .error code => if code = -1 then fail sw else return .error code

def copyScript : Except Int Bytes → Fetch σ Bytes
  | .ok script => do
    noteUses [.outputScript script.length]
    return script
  | .error code => do
    noteUses [.outputScript (errorAsLength code)]
    undefinedBehaviour

/-- Whether each output so far is internal, the array having room for 512 of them. -/
def setInternalOutput (index : Nat) (isInternal : Bool) (internal : List Bool) : Fetch σ (List Bool) := do
  noteUses [.internalOutput index]
  if index < maxNOutputsCanSign then return internal ++ [isInternal] else undefinedBehaviour

def nCachedExternalOutputs : Nat := 2

def OutputsInfo.noteChange (outputs : OutputsInfo) (value : UInt64) : OutputsInfo :=
  { outputs with
    changeTotalAmount := outputs.changeTotalAmount + value
    nChange := outputs.nChange + 1 }

def cacheOutput (value : UInt64) (script : Except Int Bytes) : Sign σ Unit := do
  let st ← getSt
  if st.outputs.cached.length < nCachedExternalOutputs then
    let script ← fetch dev (copyScript script)
    modifySt fun st =>
      { st with outputs := { st.outputs with cached := st.outputs.cached ++ [(script, value)] } }

def noteOutput (output : OutputRead) : Sign σ Unit :=
  if output.isInternal then
    modifySt fun st => { st with outputs := st.outputs.noteChange output.amount }
  else do
    cacheOutput dev output.amount output.script
    modifySt fun st => { st with nExternalOutputs := st.nExternalOutputs + 1 }

def addOutputAmount (amount : UInt64) : Sign σ Unit := do
  modifySt fun st =>
    { st with outputs := { st.outputs with totalAmount := st.outputs.totalAmount + amount } }
  record (.outputAmount amount)

/-- What is found out about an output before it is recorded: its amount, its script and whether it
is internal. -/
def readOutput (map : MerkleizedMapCommitment) (inOut : InOutInfo) (amount : UInt64) :
    Fetch σ OutputRead := do
  let script ← readOutputScript dev map 0xD004
  let isInternal ← isInOutInternal dev g { inOut with scriptPubKey := script.toOption.getD [] } false
  let isInternal ← okOr 0xD005 isInternal
  return ⟨amount, script, isInternal, inOut.addressIndex⟩

def preprocessOutput (index : Nat) (internal : List Bool) : Sign σ (List Bool) := do
  let read ← callGetMerkleizedMapWithCallback dev g.outputsRoot g.nOutputs index
    (outputKeysCallback dev) .zero
  let (map, inOut) ← fetch dev (someOr 0xD001 read)
  fetch dev (checkOr 0xD002 (!inOut.unexpectedPubkeyError))
  let raw ← fetch dev (fetchExact dev map PSBT_OUT_AMOUNT 8 0xD003)
  let amount := UInt64.ofNat (leNat raw)
  addOutputAmount amount
  let output ← fetch dev (readOutput dev g map inOut amount)
  record (.outputRead output)
  let internal ← fetch dev (setInternalOutput index output.isInternal internal)
  noteOutput dev output
  return internal

def preprocessOutputsLoop : Nat → Nat → List Bool → Sign σ (List Bool)
  | 0, _, internal => return internal
  | n + 1, index, internal => do
    let internal ← preprocessOutput dev g index internal
    preprocessOutputsLoop n (index + 1) internal

def checkOutputs (st : SignPsbtState) : Fetch σ Unit := do
  checkOr 0xD006 (st.outputs.totalAmount ≤ st.inputsTotalAmount)
  if 10 < st.outputs.nChange then failEc SW_NOT_SUPPORTED 0x0009

def preprocessOutputs : Sign σ (List Bool) := do
  modifySt fun st => { st with outputs := ⟨0, 0, 0, []⟩, nExternalOutputs := 0 }
  let internal ← preprocessOutputsLoop dev g g.nOutputs 0 []
  let st ← getSt
  fetch dev (checkOutputs st)
  return internal

end LedgerBabylon
