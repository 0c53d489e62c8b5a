import LedgerBabylon.Handler.SignPsbt.Preprocess

/-!
# Signature hashes

What the device hashes for a signature, fetched from the client again: the hashes over all inputs and
outputs, and the messages for legacy inputs and for the two versions of segwit.
-/

namespace LedgerBabylon

open Endian Exec

variable {σ : Type} (dev : Device σ) (g : GlobalState)

/-- `hash_output_n`: the serialization of an output, if it does not fail. An error code other than -1 is
used as a length. -/
def hashOutputN (index : Nat) : Fetch σ (Option Bytes) := do
  if g.nOutputs ≤ index then return none
  else
    match ← callGetMerkleizedMap dev g.outputsRoot g.nOutputs index with
    | none => return none
    | some map =>
      match ← fetchLen dev map PSBT_OUT_AMOUNT 8 with
      | none => return none
      | some amount =>
        match ← call (dev.env.mapValue map [PSBT_OUT_SCRIPT] maxOutputScriptPubKeyLen) with
        | .error (-1) => return none
        | fetched => do
          let script ← copyScript fetched
          return some (amount ++ varintWrite script.length ++ script)

def hashOutputsLoop : Nat → Nat → Fetch σ (Option Bytes)
  | 0, _ => return some []
  | n + 1, index => do
    match ← hashOutputN dev g index with
    | none => return none
    | some output => do
      let rest ← hashOutputsLoop n (index + 1)
      return rest.map (output ++ ·)

def hashOutputs : Fetch σ (Option Bytes) := hashOutputsLoop dev g g.nOutputs 0

def fetchSequence (map : MerkleizedMapCommitment) : Fetch σ Bytes := do
  let raw ← fetchLen dev map PSBT_IN_SEQUENCE 4
  return raw.getD [0xFF, 0xFF, 0xFF, 0xFF]

def fetchOutpoint (map : MerkleizedMapCommitment) (swHash swIndex : Nat) : Fetch σ Bytes := do
  let prevoutHash ← fetchExact dev map PSBT_IN_PREVIOUS_TXID 32 swHash
  let prevoutN ← fetchExact dev map PSBT_IN_OUTPUT_INDEX 4 swIndex
  return prevoutHash ++ prevoutN

def fetchInputMap (index sw : Nat) : Fetch σ MerkleizedMapCommitment := do
  let map ← callGetMerkleizedMap dev g.inputsRoot g.nInputs index
  someOr sw map

def doubleSha256 (message : Bytes) : Digest := dev.crypto.sha256 (dev.crypto.sha256 message).bytes

def Sighash.double (message : Bytes) : Sighash := ⟨message, (doubleSha256 dev message).bytes⟩

structure TxHashes where
  shaPrevouts : Digest
  shaAmounts : Digest
  shaScriptpubkeys : Digest
  shaSequences : Digest
  shaOutputs : Digest

def TxHashes.bytes (h : TxHashes) : Bytes :=
  h.shaPrevouts.bytes ++ h.shaAmounts.bytes ++ h.shaScriptpubkeys.bytes ++ h.shaSequences.bytes ++
    h.shaOutputs.bytes

structure TxParts where
  prevouts : Bytes
  amounts : Bytes
  scriptpubkeys : Bytes
  sequences : Bytes
  outputs : Bytes

def TxParts.hashes (parts : TxParts) (sha256 : Bytes → Digest) : TxHashes where
  shaPrevouts := sha256 parts.prevouts
  shaAmounts := sha256 parts.amounts
  shaScriptpubkeys := sha256 parts.scriptpubkeys
  shaSequences := sha256 parts.sequences
  shaOutputs := sha256 parts.outputs

def prevoutsLoop : Nat → Nat → Fetch σ (Bytes × Bytes)
  | 0, _ => return ([], [])
  | n + 1, index => do
    let map ← fetchInputMap dev g index 0xE001
    let outpoint ← fetchOutpoint dev map 0xE002 0xE003
    let nSequence ← fetchSequence dev map
    let (prevouts, sequences) ← prevoutsLoop n (index + 1)
    return (outpoint ++ prevouts, nSequence ++ sequences)

def amountsLoop : Nat → Nat → Fetch σ (Bytes × Bytes)
  | 0, _ => return ([], [])
  | n + 1, index => do
    let map ← fetchInputMap dev g index 0xE005
    let utxo ← getAmountScriptpubkeyFromPsbt dev map
    let utxo ← someOr 0xE006 utxo
    let (amounts, scripts) ← amountsLoop n (index + 1)
    return (leBytes 8 utxo.amount.toNat ++ amounts,
      varintWrite utxo.scriptPubKey.length ++ utxo.scriptPubKey ++ scripts)

def computeTxHashes : Fetch σ TxParts := do
  let (prevouts, sequences) ← prevoutsLoop dev g g.nInputs 0
  let outputs ← hashOutputs dev g
  let outputs ← someOr 0xE004 outputs
  let (amounts, scriptpubkeys) ← amountsLoop dev g g.nInputs 0
  return ⟨prevouts, amounts, scriptpubkeys, sequences, outputs⟩

variable (map : MerkleizedMapCommitment) (input : InputInfo)

/-- The script code of the input that is signed: its redeem script, or the script it spends. -/
def legacyScriptCode : Fetch σ Bytes :=
  if input.hasRedeemScript then do
    let fetched ← call (dev.env.streamMapValue map [PSBT_IN_REDEEM_SCRIPT])
    let (len, script) ← okOr SW_INCORRECT_DATA fetched
    return varintWrite len ++ script
  else return varintWrite input.inOut.scriptPubKey.length ++ input.inOut.scriptPubKey

def legacyInputMap (curInputIndex index : Nat) : Fetch σ MerkleizedMapCommitment :=
  if index = curInputIndex then return map else fetchInputMap dev g index SW_INCORRECT_DATA

def legacyScriptCodeAt (curInputIndex index : Nat) : Fetch σ Bytes :=
  if index = curInputIndex then legacyScriptCode dev map input else return [0x00]

def legacyInputsLoop (curInputIndex : Nat) : Nat → Nat → Fetch σ Bytes
  | 0, _ => return []
  | n + 1, index => do
    let ithMap ← legacyInputMap dev g map curInputIndex index
    let outpoint ← fetchOutpoint dev ithMap SW_INCORRECT_DATA SW_INCORRECT_DATA
    let scriptCode ← legacyScriptCodeAt dev map input curInputIndex index
    let nSequence ← fetchSequence dev ithMap
    let rest ← legacyInputsLoop curInputIndex n (index + 1)
    return outpoint ++ scriptCode ++ nSequence ++ rest

/-- `compute_sighash_legacy`. All inputs and outputs are hashed whatever the sighash type. -/
def computeSighashLegacy (curInputIndex : Nat) : Fetch σ Sighash := do
  let inputs ← legacyInputsLoop dev g map input curInputIndex g.nInputs 0
  let outputs ← hashOutputs dev g
  let outputs ← someOr SW_INCORRECT_DATA outputs
  return .double dev (leBytes 4 g.txVersion.toNat ++ varintWrite g.nInputs ++ inputs ++
    varintWrite g.nOutputs ++ outputs ++ leBytes 4 g.locktime.toNat ++
    leBytes 4 input.sighashType.toNat)

def zeroHash : Bytes := List.replicate 32 0

def InputInfo.sighashByte (input : InputInfo) : UInt8 := UInt8.ofNat input.sighashType.toNat

def hashIf (cond : Bool) (hash : Digest) : Bytes :=
  if cond then (dev.crypto.sha256 hash.bytes).bytes else zeroHash

def isP2wpkh (script : Bytes) : Bool := script.length = 22 && script.take 2 = [0x00, 0x14]

def isP2wsh (script : Bytes) : Bool := script.length = 34 && script.take 2 = [0x00, 0x20]

def segwitv0ScriptCode (script : Bytes) : Fetch σ Bytes :=
  if isP2wpkh script then return [0x19, 0x76, 0xA9, 0x14] ++ script.drop 2 ++ [0x88, 0xAC]
  else if isP2wsh script then do
    let fetched ← call (dev.env.streamMapValue map [PSBT_IN_WITNESS_SCRIPT])
    let (len, witnessScript) ← okOr SW_INCORRECT_DATA fetched
    if script.drop 2 = (dev.crypto.sha256 witnessScript).bytes then
      return varintWrite len ++ witnessScript
    else failEc SW_INCORRECT_DATA 0x000A
  else fail SW_INCORRECT_DATA

def fetchWitnessAmount : Fetch σ Bytes := do
  let raw ← call (dev.env.mapValue map [PSBT_IN_WITNESS_UTXO] (8 + 1 + maxPrevoutScriptpubkeyLen))
  let raw ← okOr SW_INCORRECT_DATA raw
  checkOr SW_INCORRECT_DATA (8 ≤ raw.length)
  return raw.take 8

def segwitv0HashOutputs (hashes : TxHashes) (sighashByte : UInt8) (curInputIndex : Nat) : Fetch σ Bytes :=
  if sighashByte &&& 0x1F ≠ 0x03 ∧ sighashByte &&& 0x1F ≠ 0x02 then
    return (dev.crypto.sha256 hashes.shaOutputs.bytes).bytes
  else if sighashByte &&& 0x1F = 0x03 ∧ curInputIndex < g.nOutputs then do
    let output ← hashOutputN dev g curInputIndex
    let output ← someOr SW_INCORRECT_DATA output
    return (doubleSha256 dev output).bytes
  else return zeroHash

def computeSighashSegwitv0 (hashes : TxHashes) (script : Bytes) (curInputIndex : Nat) : Fetch σ Sighash := do
  let sighashByte := input.sighashByte
  let all := sighashByte &&& 0x80 = 0
  let allSequences := all && sighashByte &&& 0x1F ≠ 0x03 && sighashByte &&& 0x1F ≠ 0x02
  let outpoint ← fetchOutpoint dev map SW_INCORRECT_DATA SW_INCORRECT_DATA
  let scriptCode ← segwitv0ScriptCode dev map script
  let amount ← fetchWitnessAmount dev map
  let nSequence ← fetchSequence dev map
  let hashedOutputs ← segwitv0HashOutputs dev g hashes sighashByte curInputIndex
  return .double dev (leBytes 4 g.txVersion.toNat ++ hashIf dev all hashes.shaPrevouts ++
    hashIf dev allSequences hashes.shaSequences ++ outpoint ++ scriptCode ++ amount ++ nSequence ++
    hashedOutputs ++ leBytes 4 g.locktime.toNat ++ leBytes 4 input.sighashType.toNat)

def segwitv1InputData (curInputIndex : Nat) : Fetch σ Bytes :=
  if input.sighashByte &&& 0x80 = 0x80 then do
    let outpoint ← fetchOutpoint dev map SW_INCORRECT_DATA SW_INCORRECT_DATA
    let amount ← fetchWitnessAmount dev map
    let nSequence ← fetchSequence dev map
    return outpoint ++ amount ++ varintWrite input.inOut.scriptPubKey.length ++
      input.inOut.scriptPubKey ++ nSequence
  else return leBytes 4 curInputIndex

def segwitv1SingleOutput (curInputIndex : Nat) : Fetch σ Bytes :=
  if input.sighashByte &&& 3 = 3 then do
    let output ← hashOutputN dev g curInputIndex
    let output ← someOr SW_INCORRECT_DATA output
    return (dev.crypto.sha256 output).bytes
  else return []

/-- The extension for tapscripts. The leaf hash has to be that of a marker among the key infos, which
can also ask for it to be shown. -/
def segwitv1Extension (key : KeyexprInfo) : Sign σ Bytes :=
  if key.isTapscript then do
    let st ← getSt
    let (kind, leafhash) ← fetch dev (someOr SW_INCORRECT_DATA st.psbtLeafhash)
    fetch dev (checkOr SW_INCORRECT_DATA (key.tapleafHash = leafhash))
    if kind = .display then confirmOrDeny dev (.confirmLeafhash leafhash)
    return key.tapleafHash ++ [0x00, 0xFF, 0xFF, 0xFF, 0xFF]
  else return []

def sighashTag : Bytes := text "TapSighash"

def Sighash.tagged (message : Bytes) : Sighash := ⟨message, (dev.crypto.taggedHash sighashTag message).bytes⟩

def segwitv1Common (hashes : TxHashes) (isTapscript : Bool) : Bytes :=
  let sighashByte := input.sighashByte
  let allInputs := if sighashByte &&& 0x80 = 0x80 then [] else
    hashes.shaPrevouts.bytes ++ hashes.shaAmounts.bytes ++ hashes.shaScriptpubkeys.bytes ++
      hashes.shaSequences.bytes
  let allOutputs := if sighashByte &&& 3 ≠ 2 ∧ sighashByte &&& 3 ≠ 3 then hashes.shaOutputs.bytes
    else []
  [0x00, sighashByte] ++ leBytes 4 g.txVersion.toNat ++ leBytes 4 g.locktime.toNat ++ allInputs ++
    allOutputs ++ [if isTapscript then 2 else 0]

def computeSighashSegwitv1 (hashes : TxHashes) (curInputIndex : Nat) (key : KeyexprInfo) :
    Sign σ Sighash := do
  let inputData ← fetch dev (segwitv1InputData dev map input curInputIndex)
  let singleOutput ← fetch dev (segwitv1SingleOutput dev g input curInputIndex)
  let extension ← segwitv1Extension dev key
  return .tagged dev (segwitv1Common g input hashes key.isTapscript ++ inputData ++ singleOutput ++ extension)

end LedgerBabylon
