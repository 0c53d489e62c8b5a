import LedgerBabylon.Handler.Fetch
import LedgerBabylon.Common.MiniscriptInfo

/-!
# Registering wallet policies

A policy is registered if its name and its kind are acceptable, it is sane, all its keys are for the
right network and different, one of them is the device's, and the user agrees. The response is the
policy's id and an hmac of it.
-/

namespace LedgerBabylon

open Endian Exec

variable {σ : Type} (dev : Device σ)

/-- The key expressions of a policy as it is read, by index. -/
def keyExpressions (policy : PolicyNode) : List KeyExpr :=
  (List.range (getKeyexprByIndex policy 0).1).filterMap fun i =>
    (getKeyexprByIndex policy i).2.map Prod.fst

def KeyExpressionType.keyIndexes : KeyExpressionType → List Nat
  | .normal keyIndex => [keyIndex]
  | .musig keyIndexes => keyIndexes
  | .unreadable => []

def countDistinctKeysInfo (policy : PolicyNode) : Int := (keyExpressions policy).foldl (fun ret key =>
    key.type.keyIndexes.foldl (fun (ret : Int) (keyIndex : Nat) => max ret (keyIndex + 1)) ret) (-1)

def isTaptreeMiniscriptSane : PolicyTree PolicyNode → Bool
  | .leaf script => !script.isMiniscript || isMiniscriptSane dev.overread .tapscript script
  | .branch l r => isTaptreeMiniscriptSane l && isTaptreeMiniscriptSane r

def areMiniscriptsSane : PolicyNode → Bool
  | .wsh inner => !inner.isMiniscript || isMiniscriptSane dev.overread .p2wsh inner
  | .tr _ (some tree) => isTaptreeMiniscriptSane dev tree
  | _ => true

def getPubkeyFromMerkleTree (header : PolicyMapWalletHeader) (index : Nat) : Query σ ExtPubkey := do
  let (ok, keyInfo) ← fetchKeyInfo dev header.version header.keysInfoMerkleRoot header.nKeys index
  if ok then return keyInfo.extPubkey else throw (.ret (-1))

def isDistinctFrom (header : PolicyMapWalletHeader) (pubkey : ExtPubkey) : Nat → Nat → Query σ Unit
  | 0, _ => return ()
  | n + 1, j => do
    let other ← getPubkeyFromMerkleTree dev header j
    if pubkey.compressedPubkey = other.compressedPubkey then throw (.ret (-1))
    else isDistinctFrom header pubkey n (j + 1)

def areDistinctFrom (header : PolicyMapWalletHeader) : Nat → Nat → Query σ Unit
  | 0, _ => return ()
  | n + 1, i => do
    let pubkey ← getPubkeyFromMerkleTree dev header i
    isDistinctFrom dev header pubkey (n + 1) (i + 1)
    areDistinctFrom header n (i + 1)

def KeyExpr.hasDistinctKeys (key : KeyExpr) : Bool := key.type.keyIndexes.Nodup

def arePlaceholdersIdentical : KeyExpressionType → KeyExpressionType → Bool
  | .normal i, .normal j => i = j
  | .musig is, .musig js => is.isPerm js
  | _, _ => false

/-- Two key expressions for the same key have no derivation step in common. The source also compares a
field that for musig always is the same. -/
def areDerivationsDisjoint (a b : KeyExpr) : Bool := !arePlaceholdersIdentical a.type b.type ||
  (a.numFirst ≠ b.numFirst && a.numFirst ≠ b.numSecond && a.numSecond ≠ b.numFirst &&
    a.numSecond ≠ b.numSecond)

def areKeyExpressionsSane (keys : List KeyExpr) : Bool :=
  keys.all KeyExpr.hasDistinctKeys && keys.Pairwise (areDerivationsDisjoint · ·)

def isPolicySane (header : PolicyMapWalletHeader) (policy : PolicyNode) : Query σ Unit :=
  if areMiniscriptsSane dev policy then do
    areDistinctFrom dev header (header.nKeys - 1) 0
    if areKeyExpressionsSane (keyExpressions policy) then pure () else throw (.ret (-1))
  else throw (.ret (-1))

def isPolicyAcceptable : PolicyNode → Bool
  | .withKey _ .pkh _ | .withKey _ .wpkh _ | .sh _ | .wsh _ | .tr _ _ => true
  | _ => false

def isPolicyNameAcceptable (name : Bytes) : Bool :=
  name ≠ [] && name.length ≤ maxWalletNameLength && name.head? ≠ some 0x20 &&
  name.getLast? ≠ some 0x20 && name.all fun c => 0x20 ≤ c && c ≤ 0x7E

def getPolicyWalletId (header : PolicyMapWalletHeader) : Digest :=
  dev.crypto.sha256 (UInt8.ofNat header.version :: UInt8.ofNat header.name.length :: header.name ++
    varintWrite header.descriptorTemplateLen ++ header.descriptorTemplate.elim id Digest.bytes ++
    varintWrite header.nKeys ++ header.keysInfoMerkleRoot.bytes)

def bip0341NumsPubkey : Bytes :=
  [0x02, 0x50, 0x92, 0x9B, 0x74, 0xC1, 0xA0, 0x49, 0x54, 0xB7, 0x8B, 0x4B, 0x60, 0x35, 0xE9, 0x7A,
    0x5E, 0x07, 0x8A, 0x5A, 0x0F, 0x28, 0xEC, 0x96, 0xD5, 0x47, 0xBF, 0xEE, 0x9A, 0xCE, 0x80, 0x3A,
    0xC0]

def keyType (masterKeyFingerprint : UInt32) (keyInfo : PolicyMapKeyInfo) : Fetch σ KeyType :=
  if keyInfo.extPubkey.compressedPubkey = bip0341NumsPubkey then return .unspendable
  else if keyInfo.hasKeyOrigin ∧ UInt32.ofNat (beNat keyInfo.masterKeyFingerprint) = masterKeyFingerprint then
    match dev.crypto.getExtendedPubkeyAtPath keyInfo.masterKeyDerivation with
    | none => fail SW_BAD_STATE
    | some derived => return if keyInfo.extPubkey = derived then .internal else .external
  else return .external

def readCosigner (header : PolicyMapWalletHeader) (masterKeyFingerprint : UInt32) (index : Nat) :
    Fetch σ (Bytes × KeyType) := do
  let info ← call (dev.env.leafElement header.keysInfoMerkleRoot (UInt32.ofNat header.nKeys)
    (UInt32.ofNat index) maxPolicyKeyInfoLen)
  let info ← okOr SW_INCORRECT_DATA info
  let parsed ← query (parseKeyInfo dev header.version info)
  let (ok, keyInfo) ← okOr SW_INCORRECT_DATA parsed
  checkOr SW_INCORRECT_DATA ok
  checkOr SW_INCORRECT_DATA (keyInfo.extPubkey.version = dev.crypto.pubkeyVersion)
  let type ← keyType dev masterKeyFingerprint keyInfo
  return (info, type)

def readCosigners (header : PolicyMapWalletHeader) (masterKeyFingerprint : UInt32) :
    Nat → Nat → Fetch σ (List (Bytes × KeyType))
  | 0, _ => return []
  | n + 1, index => do
    let cosigner ← readCosigner dev header masterKeyFingerprint index
    let cosigners ← readCosigners header masterKeyFingerprint n (index + 1)
    return cosigner :: cosigners

def checkInternalKeys (version nInternalKeys : Nat) : Fetch σ Unit :=
  if nInternalKeys < 1 then failEc SW_INCORRECT_DATA 0x0002
  else checkOr SW_INCORRECT_DATA (nInternalKeys = 1 || version ≠ 1)

def confirmScreen (screen : Screen) : Fetch σ Unit := do
  let answer ← call (dev.env.confirm screen)
  let answer ← okOr SW_DENY answer
  checkOr SW_DENY answer

def confirmCosigners (total : Nat) : List (Bytes × KeyType) → Nat → Fetch σ Unit
  | [], _ => return ()
  | (info, type) :: cosigners, index => do
    confirmScreen dev (.cosignerPubkey info index total type)
    confirmCosigners total cosigners (index + 1)

def confirmRegistration (wallet : WalletPolicy) (cosigners : List (Bytes × KeyType)) : Fetch σ Unit :=
  if dev.nbgl then
    confirmScreen dev (.registerWalletPolicy wallet.header.name wallet.template cosigners)
  else do
    confirmScreen dev (.registerWallet wallet.header.name wallet.template)
    confirmCosigners dev wallet.header.nKeys cosigners 0

def maxNKeysInWalletPolicy : Nat := 10

def readPolicyToRegister (raw : Bytes) : Fetch σ WalletPolicy :=
  match Buffer.readVarint (Memory.ofList raw) (Buffer.create 0 raw.length) with
  | none => fail SW_WRONG_DATA_LENGTH
  | some (_, b) => do
    let wallet ← query (readAndParseWalletPolicy dev (raw.drop b.offset))
    okOr SW_INCORRECT_DATA wallet

/-- `count_distinct_keys_info` stops at an assertion if a key expression is of no known type. -/
def checkKeysInfo (header : PolicyMapWalletHeader) (policy : PolicyNode) : Fetch σ Unit :=
  if (keyExpressions policy).any (·.type = .unreadable) then undefinedBehaviour
  else checkOr SW_INCORRECT_DATA (countDistinctKeysInfo policy = header.nKeys)

def checkPolicyToRegister (wallet : WalletPolicy) : Fetch σ Unit := do
  let policy := dev.asRead wallet.policy
  checkOr SW_NOT_SUPPORTED (wallet.header.nKeys ≤ maxNKeysInWalletPolicy)
  checkKeysInfo wallet.header policy
  if !isPolicyNameAcceptable wallet.header.name then failEc SW_INCORRECT_DATA 0x0000
  checkOr SW_NOT_SUPPORTED (isPolicyAcceptable policy)
  match ← query (isPolicySane dev wallet.header policy) with
  | .error _ => failEc SW_NOT_SUPPORTED 0x0001
  | .ok _ => return ()

/-- `handler_register_wallet`: the policy and the response, which is its id and the hmac. -/
def handlerRegisterWallet (raw : Bytes) : Fetch σ (WalletPolicy × Bytes) := do
  let wallet ← readPolicyToRegister dev raw
  checkPolicyToRegister dev wallet
  let fingerprint ← masterFingerprint dev
  let cosigners ← readCosigners dev wallet.header fingerprint wallet.header.nKeys 0
  checkInternalKeys wallet.header.version (cosigners.countP (·.2 = .internal))
  confirmRegistration dev wallet cosigners
  let walletId := getPolicyWalletId dev wallet.header
  return (wallet, walletId.bytes ++ dev.walletHmac walletId)

end LedgerBabylon
