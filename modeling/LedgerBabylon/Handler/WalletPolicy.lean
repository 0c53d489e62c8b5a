import LedgerBabylon.Common.KeyArrays
import LedgerBabylon.Handler.ScriptCompiler

/-!
# Wallet policies on the device

Reading a policy, and the script it has at a change flag and an address index.
-/

namespace LedgerBabylon

open Endian Exec

variable {σ α : Type} (dev : Device σ)

/-- `compute_tapleaf_hash`: the script is compiled once for its length and once for its bytes. -/
def computeTapleafHash (wdi : WalletDerivationInfo) (script : PolicyNode) : Query σ Digest := do
  let forLength ← internalScript dev wdi .tapscript script
  let bytes ← internalScript dev wdi .tapscript script
  return dev.crypto.taggedHash Crypto.tapleafTag (0xC0 :: varintWrite (forLength.length % 2 ^ 16) ++ bytes)

def combineTaptreeHashes (left right : Digest) : Digest :=
  let (first, second) := if byteArrayLt left.bytes right.bytes then (left, right) else (right, left)
  dev.crypto.taggedHash (text "TapBranch") (first.bytes ++ second.bytes)

def computeTaptreeHash (wdi : WalletDerivationInfo) : PolicyTree PolicyNode → Query σ Digest
  | .leaf script => computeTapleafHash dev wdi script
  | .branch l r => do
    let left ← computeTaptreeHash wdi l
    let right ← computeTaptreeHash wdi r
    return combineTaptreeHashes dev left right

def wrapScriptHash (type : InternalScriptType) (script : Bytes) : Bytes :=
  let hash := (dev.crypto.sha256 script).bytes
  match type with
  | .shWsh =>
    let hash := (dev.crypto.sha256 ([0x00, 32] ++ hash)).bytes
    [0xA9, 20] ++ dev.crypto.ripemd160 hash ++ [0x87]
  | .sh => [0xA9, 20] ++ dev.crypto.ripemd160 hash ++ [0x87]
  | _ => [0x00, 32] ++ hash

def scriptOfHash (wdi : WalletDerivationInfo) (type : InternalScriptType) (core : PolicyNode) :
    Query σ Bytes := do
  let script ← internalScript dev wdi type core
  return wrapScriptHash dev type script

/-- The script of a taproot output. If the tweak fails, which is not checked, the output still holds the
hash of the tree, or nothing that was initialised. -/
def taprootScript (xOnlyKey : Bytes) (tree : Option Digest) : Query σ Bytes :=
  match dev.crypto.trTweakPubkey xOnlyKey ((tree.map Digest.bytes).getD []), tree with
  | some (_, out), _ => return [0x51, 32] ++ out
  | none, some h => return [0x51, 32] ++ h.bytes
  | none, none => throw .undefinedBehaviour

def taptreeHashIfAny (wdi : WalletDerivationInfo) : Option (PolicyTree PolicyNode) → Query σ (Option Digest)
  | none => return none
  | some tree => do
    let h ← computeTaptreeHash dev wdi tree
    return some h

def getWalletScript (policy : PolicyNode) (wdi : WalletDerivationInfo) : Query σ Bytes :=
  match policy with
  | .withKey _ .pkh key => do
    let pubkey ← getDerivedPubkey dev wdi key
    return [0x76, 0xA9, 20] ++ dev.crypto.hash160 pubkey ++ [0x88, 0xAC]
  | .withKey _ .wpkh key => do
    let pubkey ← getDerivedPubkey dev wdi key
    return [0x00, 20] ++ dev.crypto.hash160 pubkey
  | .sh (.wsh core) => scriptOfHash dev wdi .shWsh core
  | .sh core => scriptOfHash dev wdi .sh core
  | .wsh core => scriptOfHash dev wdi .wsh core
  | .tr key tree => do
    let pubkey ← getDerivedPubkey dev wdi key
    let h ← taptreeHashIfAny dev wdi tree
    taprootScript dev (pubkey.drop 1) h
  | _ => throw (.ret (-1))

def compareWalletScriptAtPath (policy : PolicyNode) (wdi : WalletDerivationInfo)
    (expectedScript : Bytes) : Query σ Bool := do
  let script ← getWalletScript dev policy wdi
  return script = expectedScript

structure WalletPolicy where
  header : PolicyMapWalletHeader
  template : Bytes
  policy : PolicyNode

def fetchTemplate (header : PolicyMapWalletHeader) : Query σ Memory :=
  match header.descriptorTemplate with
  | .inl template => return dev.uninitialised.write 0 template
  | .inr hash => do
    match ← ask (attempt (dev.env.preimage hash maxDescriptorTemplateLengthV2)) with
    | .error _ => throw (.ret (-1))
    | .ok (_, template) => return dev.uninitialised.write 0 template

def actionAccepts (name : Bytes) (descriptor : Memory) : Bool :=
  !(0 < (getActionStep name).step) || checkDescriptor descriptor (getActionStep name)

/-- `read_and_parse_wallet_policy`. The length of the template is the one in the header. -/
def readAndParseWalletPolicy (raw : Bytes) : Query σ WalletPolicy := do
  let header ← ofOption (readWalletPolicyHeader raw)
  let descriptor ← fetchTemplate dev header
  let template := descriptor.read 0 header.descriptorTemplateLen
  if actionAccepts header.name descriptor then
    let policy ← ofOption (parseDescriptorTemplate (ParseEnv.device header.version) template)
    return ⟨header, template, policy⟩
  else throw (.ret (-1))

/-- The policy that the handlers find in memory: the keys of a node are read as an array. -/
def Device.asRead (policy : PolicyNode) : PolicyNode := policy.asRead dev.keyMemory

end LedgerBabylon
