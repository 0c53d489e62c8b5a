import LedgerBabylon.Handler.SignPsbt.Display
import LedgerBabylon.Handler.SignPsbt.Sighash

/-!
# Signing

For every internal key expression and every input the flow computes the signature hash that fits the
input, signs it and yields the signature. The loop does not look at the classification of the inputs:
the condition is commented out in the source.
-/

namespace LedgerBabylon

open Endian Exec

variable {σ : Type} (dev : Device σ) (g : GlobalState)

def yieldSignature (sig : Signature) (pubkey : Bytes) (tapleafHash : Option Bytes)
    (bytes : Bytes) : Sign σ Unit := do
  let augmPubkey := pubkey ++ tapleafHash.getD []
  let keyPart := if 1 ≤ g.protocolVersion then UInt8.ofNat augmPubkey.length :: augmPubkey else []
  record (.signed sig)
  let continued ← fetch dev (call (dev.env.yield (CCMD_YIELD :: varintWrite sig.input ++ keyPart ++ bytes)))
  fetch dev (okOr SW_BAD_STATE continued)

def yieldMusigPartialSignatureTag : Nat := 0xFFFFFFFE

def yieldMusigPartialSignature (sig : Signature) (psig participantPk aggregatePubkey : Bytes)
    (tapleafHash : Option Bytes) : Sign σ Unit :=
  if g.protocolVersion = 0 then fetch dev (fail SW_BAD_STATE)
  else do
    record (.signed sig)
    let continued ← fetch dev (call (dev.env.yield (CCMD_YIELD ::
      varintWrite yieldMusigPartialSignatureTag ++ varintWrite sig.input ++ psig ++ participantPk ++
      aggregatePubkey ++ tapleafHash.getD [])))
    fetch dev (okOr SW_BAD_STATE continued)

/-- The path of the signing key: the origin of the key info and two more steps. The array has room
for eight. -/
def signPath (key : KeyexprInfo) (inOut : InOutInfo) : Fetch σ (List UInt32) := do
  noteUses ((List.range (key.keyDerivation.length + 2)).map .signStep)
  if maxBip32PathSteps < key.keyDerivation.length + 2 then undefinedBehaviour
  else return key.keyDerivation ++ [key.keyExpr.changeStep inOut.isChange, inOut.addressIndex]

def KeyexprInfo.yieldedLeaf (key : KeyexprInfo) : Option Bytes :=
  if key.isTapscript then some key.tapleafHash else none

def KeyexprInfo.signature (key : KeyexprInfo) (kind : SignatureKind) (input : InputInfo)
    (curInputIndex : Nat) (sighash : Sighash) (path : List UInt32) : Signature where
  kind
  input := curInputIndex
  keyexpr := key.index
  isChange := input.inOut.isChange
  addressIndex := input.inOut.addressIndex
  sighashType := input.sighashType
  sighash
  path
  leaf := key.yieldedLeaf

def signSighashEcdsaAndYield (key : KeyexprInfo) (input : InputInfo) (curInputIndex : Nat)
    (sighash : Sighash) : Sign σ Unit := do
  let path ← fetch dev (signPath key input.inOut)
  let (pubkey, sig) ← fetch dev (someOr SW_BAD_STATE (dev.crypto.ecdsaSignWithKey path sighash.hash))
  yieldSignature dev g (key.signature .ecdsa input curInputIndex sighash path) pubkey none
    (sig ++ [input.sighashByte])

/-- The secret key for a taproot signature: key path spends tweak it with the tree. -/
def taprootSeckey (key : KeyexprInfo) (taptreeHash : Option Digest) (seckey : Bytes) : Bytes :=
  if key.isTapscript then seckey
  else dev.crypto.trTweakSeckey seckey ((taptreeHash.map Digest.bytes).getD [])

def schnorrSignWithKey (key : KeyexprInfo) (taptreeHash : Option Digest) (path : List UInt32)
    (sighash : Bytes) : Option (Bytes × Bytes) := do
  let seckey ← dev.crypto.privkeyAtPath path
  let seckey := taprootSeckey dev key taptreeHash seckey
  let pubkey ← dev.crypto.pubkeyOf seckey
  let sig ← dev.crypto.schnorrSign seckey sighash
  if sig.length = 64 then some (pubkey, sig) else none

def signSighashSchnorrAndYield (key : KeyexprInfo) (input : InputInfo) (taptreeHash : Option Digest)
    (curInputIndex : Nat) (sighash : Sighash) : Sign σ Unit := do
  let path ← fetch dev (signPath key input.inOut)
  let (pubkey, sig) ← fetch dev
    (someOr SW_BAD_STATE (schnorrSignWithKey dev key taptreeHash path sighash.hash))
  -- the type is only appended if it is not the default one
  let suffix := if input.sighashByte = 0 then [] else [input.sighashByte]
  yieldSignature dev g (key.signature .schnorr input curInputIndex sighash path) (pubkey.drop 1)
    key.yieldedLeaf (sig ++ suffix)

/-- The tweak of a key path spend, and the aggregate key with it. A failure of the tweak is not
checked and leaves the key as it is. -/
def musigTaptweak (xOnlyKey : Bytes) (taptreeHash : Option Digest) : (Bytes × Bool) × Bytes :=
  let h := (taptreeHash.map Digest.bytes).getD []
  let tweak := (dev.crypto.taggedHash Crypto.taptweakTag (xOnlyKey ++ h)).bytes
  match dev.crypto.trTweakPubkey xOnlyKey h with
  | some (parity, x) => ((tweak, true), (0x02 + parity) :: x)
  | none => ((tweak, true), 0x02 :: xOnlyKey)

/-- The keys of the cosigners up to the first one that cannot be fetched, and whether there is none. -/
def fetchMusigKeys (wdi : WalletDerivationInfo) : List Nat → Fetch σ (Bool × List Bytes)
  | [] => return (true, [])
  | index :: indexes => do
    match ← query (getExtendedPubkeyFromClient dev wdi index) with
    | .error _ => return (false, [])
    | .ok (_, key) => do
      let (fetched, keys) ← fetchMusigKeys wdi indexes
      return (fetched, key.compressedPubkey :: keys)

def musigSessionId (hashes : TxHashes) : Digest :=
  dev.crypto.taggedHash (text "PsbtSessionId") (g.header.keysInfoMerkleRoot.bytes ++ hashes.bytes)

def tweakedMusigInfo (hashes : TxHashes) (key : KeyexprInfo) (inOut : InOutInfo)
    (taptreeHash : Option Digest) (keys : List Bytes) : Fetch σ MusigPerInputInfo := do
  let (child, tweak0) ← someOr SW_BAD_STATE
    (dev.crypto.bip32CKDpub key.pubkey (key.keyExpr.changeStep inOut.isChange))
  let (child, tweak1) ← someOr SW_BAD_STATE (dev.crypto.bip32CKDpub child inOut.addressIndex)
  let tweaks := [(tweak0, false), (tweak1, false)]
  if key.isTapscript then return ⟨keys, child.compressedPubkey, tweaks, musigSessionId dev g hashes⟩
  else do
    let (tweak2, tweaked) := musigTaptweak dev child.xOnly taptreeHash
    return ⟨keys, tweaked, tweaks ++ [tweak2], musigSessionId dev g hashes⟩

/-- The first `n` keys after some of them were written. -/
def MusigPerInputInfo.keysAfter (before : MusigPerInputInfo) (n : Nat) (keys : List Bytes) : List Bytes :=
  (keys ++ before.keys.drop keys.length ++ List.replicate n (List.replicate 33 0)).take n

/-- `compute_musig_per_input_info`, and whether all keys were fetched. If not, it returns -1, which is
true: the flow goes on with what was in memory. -/
def computeMusigPerInputInfo (hashes : TxHashes) (key : KeyexprInfo) (inOut : InOutInfo)
    (taptreeHash : Option Digest) (curInputIndex : Nat) (keyIndexes : List Nat) :
    Fetch σ (Bool × MusigPerInputInfo) := do
  let (fetched, keys) ← fetchMusigKeys dev (walletDerivationInfo g inOut) keyIndexes
  if fetched then do
    let info ← tweakedMusigInfo dev g hashes key inOut taptreeHash (sortKeys keys)
    return (true, info)
  else
    let before := dev.musigMemory curInputIndex key.index
    return (false, { before with keys := before.keysAfter keyIndexes.length keys })

def fetchPubnonces (map : MerkleizedMapCommitment) (suffix : Bytes) : List Bytes → Fetch σ (List Bytes)
  | [] => return []
  | key :: keys => do
    let nonce ← call (dev.env.mapValue map (PSBT_IN_MUSIG2_PUB_NONCE :: key ++ suffix) 66)
    let nonce ← okOr SW_INCORRECT_DATA nonce
    checkOr SW_INCORRECT_DATA (nonce.length = 66)
    let nonces ← fetchPubnonces map suffix keys
    return nonce :: nonces

def musigSession (id : Digest) : Fetch σ Bytes := do
  let session ← call (dev.env.musigRound2 id)
  let session ← okOr SW_BAD_STATE session
  someOr SW_BAD_STATE session

/-- What a partial signature is computed from. -/
structure MusigGathered where
  /-- whether all key infos were fetched and parsed -/
  fetched : Bool
  info : MusigPerInputInfo
  randRoot : Bytes
  nonces : List Bytes

/-- The own nonce has to be there; the secret one is computed again from the session's randomness. -/
def gatherNonces (key : KeyexprInfo) (map : MerkleizedMapCommitment) (info : MusigPerInputInfo) :
    Fetch σ (Bytes × List Bytes) := do
  let suffix := info.aggKeyTweaked ++ key.yieldedLeaf.getD []
  let _ ← fetchPubnonces dev map suffix [key.internalPubkey.compressedPubkey]
  let randRoot ← musigSession dev info.psbtSessionId
  let nonces ← fetchPubnonces dev map suffix info.keys
  return (randRoot, nonces)

def gatherMusig (hashes : TxHashes) (key : KeyexprInfo) (map : MerkleizedMapCommitment)
    (inOut : InOutInfo) (taptreeHash : Option Digest) (curInputIndex : Nat) (keyIndexes : List Nat) :
    Fetch σ MusigGathered := do
  let (fetched, info) ← computeMusigPerInputInfo dev g hashes key inOut taptreeHash curInputIndex keyIndexes
  let (randRoot, nonces) ← gatherNonces dev key map info
  return ⟨fetched, info, randRoot, nonces⟩

def splitPubnonce (nonce : Bytes) : MusigPubnonce := ⟨nonce.take 33, nonce.drop 33⟩

/-- The aggregate nonce. If it cannot be computed a status word is sent, and the flow goes on with what
is in the variable. -/
def aggregateNonce (nonces : List Bytes) : Sign σ MusigPubnonce := do
  let (ok, aggnonce) := dev.musigNonceAgg (nonces.map splitPubnonce)
  if !ok then sendStatus dev SW_INCORRECT_DATA none
  return aggnonce

def computeRandIJ (randRoot : Bytes) (i j : Nat) : Bytes :=
  (dev.crypto.sha256 (randRoot ++ beBytes 4 i ++ beBytes 4 j)).bytes

def MusigPerInputInfo.context (info : MusigPerInputInfo) (aggnonce : MusigPubnonce) (sighash : Bytes) :
    MusigSessionContext where
  aggnonce
  pubkeys := info.keys
  tweaks := info.tweaks.map fun tweak => (beNat tweak.1, tweak.2)
  msg := sighash

def maxMusigTweaks : Nat := 3

def partialSignature (key : KeyexprInfo) (info : MusigPerInputInfo) (aggnonce : MusigPubnonce)
    (secnonce : MusigSecnonce) (sighash : Bytes) : Fetch σ Bytes :=
  match dev.crypto.privkeyAtPath key.keyDerivation with
  | none => throw .silent
  | some seckey =>
    if maxMusigTweaks < info.tweaks.length then undefinedBehaviour
    else
      match dev.musigSign secnonce (beNat seckey) (info.context aggnonce sighash) with
      | none => throw .silent
      | some psig => return beBytes 32 psig

def signGathered (key : KeyexprInfo) (curInputIndex : Nat) (d : MusigGathered) (sighash : Bytes) :
    Sign σ Bytes := do
  let aggnonce ← aggregateNonce dev d.nonces
  let rand := computeRandIJ dev d.randRoot curInputIndex key.index
  let secnonce ← fetch dev (someOr SW_BAD_STATE
    (dev.musigNonceGen rand key.internalPubkey.compressedPubkey (d.info.aggKeyTweaked.drop 1)))
  fetch dev (partialSignature dev key d.info aggnonce secnonce sighash)

/-- `sign_sighash_musig_and_yield` up to the partial signature. -/
def musigPartialSignatureFor (hashes : TxHashes) (key : KeyexprInfo) (map : MerkleizedMapCommitment)
    (inOut : InOutInfo) (taptreeHash : Option Digest) (curInputIndex : Nat) (keyIndexes : List Nat)
    (sighash : Bytes) : Sign σ (MusigPerInputInfo × Bytes) := do
  let d ← fetch dev (gatherMusig dev g hashes key map inOut taptreeHash curInputIndex keyIndexes)
  let psig ← signGathered dev key curInputIndex d sighash
  return (d.info, psig)

def signSighashMusigAndYield (hashes : TxHashes) (key : KeyexprInfo) (map : MerkleizedMapCommitment)
    (input : InputInfo) (taptreeHash : Option Digest) (curInputIndex : Nat) (keyIndexes : List Nat)
    (sighash : Sighash) : Sign σ Unit := do
  let (info, psig) ← musigPartialSignatureFor dev g hashes key map input.inOut taptreeHash
    curInputIndex keyIndexes sighash.hash
  yieldMusigPartialSignature dev g
    (key.signature .musigPartial input curInputIndex sighash key.keyDerivation) psig
    key.internalPubkey.compressedPubkey info.aggKeyTweaked key.yieldedLeaf

def signedSighashType (map : MerkleizedMapCommitment) (input : InputInfo) (default : UInt32) :
    Fetch σ UInt32 :=
  if input.hasSighashType then do
    let type ← call (dev.env.mapValueU32Le map [PSBT_IN_SIGHASH_TYPE])
    okOr SW_INCORRECT_DATA type
  else return default

def ledgerAssert (cond : Bool) : Fetch σ Unit := if cond then pure () else throw .silent

def KeyExpr.isNormal (keyExpr : KeyExpr) : Bool :=
  match keyExpr.type with
  | .normal _ => true
  | .musig _ | .unreadable => false

def InputInfo.toSign (input : InputInfo) (sighashType : UInt32) (scriptPubKey : Bytes) : InputInfo :=
  { input with sighashType, inOut := { input.inOut with scriptPubKey } }

def legacySighash (key : KeyexprInfo) (map : MerkleizedMapCommitment) (input : InputInfo)
    (curInputIndex : Nat) : Fetch σ (InputInfo × Sighash) := do
  let type ← signedSighashType dev map input SIGHASH_ALL
  ledgerAssert key.keyExpr.isNormal
  let utxo ← getAmountScriptpubkeyFromPsbtNonwitness dev map none
  let utxo ← someOr SW_INCORRECT_DATA utxo
  let input := input.toSign type utxo.scriptPubKey
  let sighash ← computeSighashLegacy dev g map input curInputIndex
  return (input, sighash)

def signLegacyInput (key : KeyexprInfo) (map : MerkleizedMapCommitment) (input : InputInfo)
    (curInputIndex : Nat) : Sign σ Unit := do
  let (input, sighash) ← fetch dev (legacySighash dev g key map input curInputIndex)
  signSighashEcdsaAndYield dev g key input curInputIndex sighash

/-- The script that a segwit input is signed for: its redeem script, if it has one, or the script it
spends. -/
def segwitScript (map : MerkleizedMapCommitment) (input : InputInfo) (scriptPubKey : Bytes) : Fetch σ Bytes :=
  if input.hasRedeemScript then do
    let script ← call (dev.env.mapValue map [PSBT_IN_REDEEM_SCRIPT] maxPrevoutScriptpubkeyLen)
    let script ← okOr SW_INCORRECT_DATA script
    if scriptPubKey = [0xA9, 0x14] ++ dev.crypto.hash160 script ++ [0x87] then return script
    else failEc SW_INCORRECT_DATA 0x000B
  else return scriptPubKey

/-- An input with witness utxo: what is signed, and the script it is signed for. The type is read
before anything else. -/
def segwitInput (map : MerkleizedMapCommitment) (input : InputInfo) : Fetch σ (InputInfo × Bytes) := do
  let type ← signedSighashType dev map input
    (if getPolicySegwitVersion g.policy = 1 then SIGHASH_DEFAULT else SIGHASH_ALL)
  let utxo ← getAmountScriptpubkeyFromPsbtWitness dev map
  let utxo ← someOr SW_INCORRECT_DATA utxo
  let script ← segwitScript dev map input utxo.scriptPubKey
  return (input.toSign type utxo.scriptPubKey, script)

def segwitv0Sighash (hashes : TxHashes) (key : KeyexprInfo) (map : MerkleizedMapCommitment)
    (input : InputInfo) (script : Bytes) (curInputIndex : Nat) : Fetch σ Sighash := do
  ledgerAssert key.keyExpr.isNormal
  computeSighashSegwitv0 dev g map input hashes script curInputIndex

def signingTaptreeHash (key : KeyexprInfo) (inOut : InOutInfo)
    (tree : Option (PolicyTree PolicyNode)) : Fetch σ (Option Digest) :=
  if key.isTapscript then return none
  else do
    let h ← query (taptreeHashIfAny dev (walletDerivationInfo g inOut) tree)
    okOr SW_BAD_STATE h

/-- The signature of a taproot input, which depends on the kind of key expression. -/
def signTaproot (hashes : TxHashes) (key : KeyexprInfo) (map : MerkleizedMapCommitment)
    (input : InputInfo) (curInputIndex : Nat) (tree : Option (PolicyTree PolicyNode)) :
    Sign σ Unit := do
  let sighash ← computeSighashSegwitv1 dev g map input hashes curInputIndex key
  let taptreeHash ← fetch dev (signingTaptreeHash dev g key input.inOut tree)
  match key.keyExpr.type with
  | .normal _ => signSighashSchnorrAndYield dev g key input taptreeHash curInputIndex sighash
  | .musig keyIndexes =>
    signSighashMusigAndYield dev g hashes key map input taptreeHash curInputIndex keyIndexes sighash
  | .unreadable => fetch dev undefinedBehaviour

def signSegwitInput (hashes : TxHashes) (key : KeyexprInfo) (map : MerkleizedMapCommitment)
    (input : InputInfo) (curInputIndex : Nat) : Sign σ Unit := do
  let (input, script) ← fetch dev (segwitInput dev g map input)
  if getPolicySegwitVersion g.policy = 0 then
    let sighash ← fetch dev (segwitv0Sighash dev g hashes key map input script curInputIndex)
    signSighashEcdsaAndYield dev g key input curInputIndex sighash
  else
    match g.policy with
    | .tr _ tree => signTaproot dev g hashes key map input curInputIndex tree
    | _ => fetch dev (fail SW_BAD_STATE)

def signTransactionInput (hashes : TxHashes) (key : KeyexprInfo) (map : MerkleizedMapCommitment)
    (input : InputInfo) (curInputIndex : Nat) : Sign σ Unit :=
  if input.hasWitnessUtxo then signSegwitInput dev g hashes key map input curInputIndex
  else signLegacyInput dev g key map input curInputIndex

def getKeyexpr (i : Nat) : Sign σ KeyexprInfo := do
  let st ← getSt
  match st.internalKeyExpressions[i]? with
  | some key => return key
  | none => fetch dev undefinedBehaviour

def setKeyexpr (i : Nat) (key : KeyexprInfo) : Sign σ Unit :=
  modifySt fun st => { st with internalKeyExpressions := st.internalKeyExpressions.set i key }

/-- `fill_taproot_keyexpr_info`: the hash of the tapleaf at the input's address. No status word is
sent if it fails. -/
def fillTaprootKeyexprInfo (key : KeyexprInfo) (inOut : InOutInfo) : Fetch σ KeyexprInfo :=
  match key.tapleaf with
  | none => return key
  | some leaf => do
    match ← query (computeTapleafHash dev (walletDerivationInfo g inOut) leaf) with
    | .error _ => throw .silent
    | .ok hash => return { key with tapleafHash := hash.bytes }

def signInputWithKey (hashes : TxHashes) (i index : Nat) : Sign σ Unit := do
  let read ← readInput dev g index
  let (map, input) ← fetch dev (someOr SW_INCORRECT_DATA read)
  let key ← getKeyexpr dev i
  let key ← fetch dev (fillTaprootKeyexprInfo dev g key input.inOut)
  setKeyexpr i key
  signTransactionInput dev g hashes key map input index

/-- The body of the outer loop. The key is read again; whether it still is internal is not looked
at. -/
def signWithKey (hashes : TxHashes) (i : Nat) : Sign σ Unit := do
  let key ← getKeyexpr dev i
  let (_, key) ← fillKeyexprInfoIfInternal dev g key
  setKeyexpr i key
  forIndices (signInputWithKey dev g hashes i) g.nInputs 0

def signTransaction (hashes : TxHashes) : Sign σ Unit := do
  let st ← getSt
  forIndices (signWithKey dev g hashes) st.internalKeyExpressions.length 0

def initSignPsbtCache : Sign σ Unit :=
  modify fun w => { w with session := { w.session with cache := .empty } }

def handlerSignPsbt (protocolVersion : Nat) (raw : Bytes) : Sign σ Unit :=
  match readSignPsbtRequest raw with
  | .error sw => fetch dev (fail sw)
  | .ok req => do
    let g ← initGlobalState dev protocolVersion req
    initSignPsbtCache
    preprocessInputs dev g
    let internalOutputs ← preprocessOutputs dev g
    let parts ← fetch dev (computeTxHashes dev g)
    record (.outputsHashed parts.outputs)
    displayTransaction dev g internalOutputs
    signTransaction dev g (parts.hashes dev.crypto.sha256)
    sendStatus dev SW_OK none

def World.initial (env : σ) : World σ := ⟨⟨env, .empty, []⟩, .zero, []⟩

def runTrace (protocolVersion : Nat) (raw : Bytes) (env : σ) : List Event :=
  (finalState (handlerSignPsbt dev protocolVersion raw) (World.initial env)).trace

end LedgerBabylon
