import LedgerBabylon.Handler.SignPsbt.State

/-!
# Internal key expressions

The key expressions for which the device can derive the key are found by comparing each key info with
the key at its origin, whatever the fingerprint in it; whether the key info was parsed is not checked.
On the way, key infos that are markers set the finality provider's key and the leaf hash. Inputs and
outputs name a key expression through the derivation fields of their maps.
-/

namespace LedgerBabylon

open Endian Exec

variable {σ : Type} (dev : Device σ)

def noteLeafhash (kind : LeafhashKind) (leafhash : Bytes) : Sign σ Unit := do
  let st ← getSt
  if st.psbtLeafhash.isNone then
    modifySt fun st => { st with psbtLeafhash := some (kind, leafhash) }
    record (.leafhashRead kind leafhash)

/-- The data of a Babylon action that a key info carries. The last finality key counts, and the first
leaf hash. -/
def noteMarkers (keyInfo : PolicyMapKeyInfo) : Sign σ Unit :=
  match getFingerprint keyInfo.masterKeyFingerprint with
  | .finalityPub => do
    modifySt fun st => { st with psbtFinalityPk := some keyInfo.extPubkey.xOnly }
    record (.finalityPkRead keyInfo.extPubkey.xOnly)
  | .leafHashDisplay => noteLeafhash .display keyInfo.extPubkey.xOnly
  | .leafHashCheck => noteLeafhash .check keyInfo.extPubkey.xOnly
  | .null | .other => pure ()

/-- Whether the key is the one that the device derives at the path. A failed derivation leaves the
key to compare with uninitialised. -/
def isOwnKey (path : List UInt32) (key : ExtPubkey) : Fetch σ Bool :=
  match dev.crypto.getExtendedPubkeyAtPath path with
  | none => undefinedBehaviour
  | some derived => return key = derived

/-- The parse in `get_and_verify_key_info`, which goes on after it has failed, with what it has left in
the key info. -/
def parseKeyInfoAnyway (version : Nat) (info : Bytes) : Fetch σ PolicyMapKeyInfo := do
  match ← query (parseKeyInfo dev version info) with
  | .ok (_, keyInfo) => return keyInfo
  | .error _ => undefinedBehaviour  -- no code is thrown: a failed parse is `.ok (false, _)`

/-- Whether the parse succeeds makes no difference. -/
theorem parseKeyInfoAnyway_eq {version : Nat} {info : Bytes} {parsed : Bool} {keyInfo : PolicyMapKeyInfo}
    (h : parsePolicyMapKeyInfo dev.crypto.sha256 version info = some (parsed, keyInfo)) (s : Session σ) :
    ∃ s', parseKeyInfoAnyway dev version info s = .ok keyInfo s' := by
  simp only [parseKeyInfoAnyway, parseKeyInfo, useArrays, h]
  exact ⟨_, rfl⟩

def KeyexprInfo.withKeyInfo (info : KeyexprInfo) (keyInfo : PolicyMapKeyInfo) : KeyexprInfo :=
  { info with
    keyDerivation := keyInfo.masterKeyDerivation
    fingerprint := UInt32.ofNat (beNat keyInfo.masterKeyFingerprint)
    pubkey := keyInfo.extPubkey }

def getAndVerifyKeyInfo (g : GlobalState) (keyIndex : Nat) (info : KeyexprInfo) :
    Sign σ (Bool × KeyexprInfo) := do
  match ← fetch dev (call (dev.env.leafElement g.header.keysInfoMerkleRoot
      (UInt32.ofNat g.header.nKeys) (UInt32.ofNat keyIndex) maxPolicyKeyInfoLen)) with
  | .error _ => return (false, info)
  | .ok str => do
    let keyInfo ← fetch dev (parseKeyInfoAnyway dev g.header.version str)
    noteMarkers keyInfo
    let own ← fetch dev (isOwnKey dev keyInfo.masterKeyDerivation keyInfo.extPubkey)
    return (own, info.withKeyInfo keyInfo)

structure MusigKeys where
  info : KeyexprInfo
  tmp : KeyexprInfo
  hasInternalKey : Bool
  keys : List Bytes

def fillMusigKeys (g : GlobalState) : List Nat → MusigKeys → Sign σ MusigKeys
  | [], found => return found
  | keyIndex :: keyIndexes, found => do
    let (own, tmp) ← getAndVerifyKeyInfo dev g keyIndex found.tmp
    let info := if own then
        { found.info with keyDerivation := tmp.keyDerivation, internalPubkey := tmp.pubkey }
      else found.info
    fillMusigKeys g keyIndexes
      ⟨info, tmp, found.hasInternalKey || own, found.keys ++ [tmp.pubkey.compressedPubkey]⟩

def KeyexprInfo.withAggregate (info : KeyexprInfo) (xpub : ExtPubkey) : KeyexprInfo :=
  { info with
    psbtRootKeyDerivationLength := 0
    pubkey := xpub
    fingerprint := dev.crypto.keyFingerprint xpub.compressedPubkey }

def fillKeyexprInfoIfInternal (g : GlobalState) (info : KeyexprInfo) : Sign σ (Bool × KeyexprInfo) :=
  match info.keyExpr.type with
  | .normal keyIndex => do
    let (own, tmp) ← getAndVerifyKeyInfo dev g keyIndex info
    return (own, if own then
        { tmp with
          internalPubkey := tmp.pubkey
          psbtRootKeyDerivationLength := tmp.keyDerivation.length }
      else info)
  | .musig keyIndexes => do
    let found ← fillMusigKeys dev g keyIndexes ⟨info, info, false, []⟩
    if found.hasInternalKey then
      return (true, found.info.withAggregate dev (aggregateXpub dev found.keys))
    else return (false, found.info)
  | .unreadable => fetch dev undefinedBehaviour

def addInternalKeyExpression (info : KeyexprInfo) : Sign σ Unit := do
  let st ← getSt
  if maxInternalKeyExpressions ≤ st.internalKeyExpressions.length then
    fetch dev (failEc SW_NOT_SUPPORTED 0x000C)
  else modifySt fun st =>
    { st with internalKeyExpressions := st.internalKeyExpressions ++ [info] }

/-- The key expression with the given index. The tapleaf of an earlier one stays if this one has
none. -/
def KeyexprInfo.atIndex (info : KeyexprInfo) (policy : PolicyNode) (index : Nat) : KeyexprInfo :=
  match (getKeyexprByIndex policy index).2 with
  | none => { info with index }
  | some (keyExpr, none) => { info with index, keyExpr }
  | some (keyExpr, some leaf) => { info with index, keyExpr, tapleaf := some leaf, isTapscript := true }

def fillKeyExpressionsLoop (g : GlobalState) : Nat → Nat → KeyexprInfo → Sign σ Unit
  | 0, _, _ => return ()
  | n + 1, curIndex, info => do
    let (internal, info) ← fillKeyexprInfoIfInternal dev g (info.atIndex g.policy curIndex)
    if internal then
      addInternalKeyExpression dev info
      fillKeyExpressionsLoop g n (curIndex + 1) info
    else fillKeyExpressionsLoop g n (curIndex + 1) info

def fillInternalKeyExpressions (g : GlobalState) : Sign σ Unit := do
  modifySt fun st => { st with internalKeyExpressions := [] }
  fillKeyExpressionsLoop dev g (getKeyexprByIndex g.policy 0).1 0 .zero
  let st ← getSt
  if st.internalKeyExpressions = [] then fetch dev (failEc SW_INCORRECT_DATA 0x0002)

structure DerivationInfo where
  fingerprint : UInt32
  keyOrigin : List UInt32

def DerivationInfo.changeStep (info : DerivationInfo) : UInt32 :=
  info.keyOrigin.getD (info.keyOrigin.length - 2) 0

def DerivationInfo.addressIndex (info : DerivationInfo) : UInt32 :=
  info.keyOrigin.getD (info.keyOrigin.length - 1) 0

/-- `read_change_and_index_from_psbt_bip32_derivation`: an error, or the derivation if its length is
supported. -/
def readDerivation (keyType : UInt8) (data : Bytes) (map : MerkleizedMapCommitment)
    (index : Nat) : Fetch σ (Except Unit (Option DerivationInfo)) := do
  let isTap := keyType = PSBT_IN_TAP_BIP32_DERIVATION ∨ keyType = PSBT_OUT_TAP_BIP32_DERIVATION
  if data.length ≠ (if isTap then 32 else 33) then return .error ()
  else
    match ← call (dev.env.bip32Derivation keyType map.valuesRoot (UInt32.ofNat map.size)
        (UInt32.ofNat index)) with
    | .error _ => return .error ()
    | .ok (fingerprint, steps) =>
      if steps.length < 2 ∨ maxBip32PathSteps < steps.length then return .ok none
      else return .ok (some ⟨fingerprint, steps⟩)

def isKeyexprCompatible (key : KeyexprInfo) (info : DerivationInfo) : Bool :=
  key.fingerprint = info.fingerprint &&
  key.psbtRootKeyDerivationLength + 2 = info.keyOrigin.length &&
  key.keyDerivation.take key.psbtRootKeyDerivationLength =
    info.keyOrigin.take key.psbtRootKeyDerivationLength &&
  (info.changeStep = key.keyExpr.numFirst || info.changeStep = key.keyExpr.numSecond)

structure InOutInfo where
  unexpectedPubkeyError : Bool
  keyExpressionFound : Bool
  isChange : Bool
  addressIndex : UInt32
  scriptPubKey : Bytes

def InOutInfo.zero : InOutInfo := ⟨false, false, false, 0, []⟩

def InOutInfo.found (inOut : InOutInfo) (key : KeyexprInfo) (info : DerivationInfo) : InOutInfo :=
  { inOut with
    keyExpressionFound := true
    isChange := key.keyExpr.numSecond = info.changeStep
    addressIndex := info.addressIndex }

def walletDerivationInfo (g : GlobalState) (inOut : InOutInfo) : WalletDerivationInfo where
  walletVersion := g.header.version
  keysMerkleRoot := g.header.keysInfoMerkleRoot
  nKeys := g.header.nKeys
  change := inOut.isChange
  addressIndex := inOut.addressIndex
  useCache := true

/-- `is_in_out_internal`: an error, or whether it is internal. Outputs have to be on the change path. -/
def isInOutInternal (g : GlobalState) (inOut : InOutInfo) (isInput : Bool) : Fetch σ (Except Int Bool) :=
  if !inOut.keyExpressionFound then return .ok false
  else if !isInput && !inOut.isChange then return .ok false
  else query (compareWalletScriptAtPath dev g.policy (walletDerivationInfo g inOut) inOut.scriptPubKey)

end LedgerBabylon
