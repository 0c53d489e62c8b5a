import LedgerBabylon.Handler.Environment
import LedgerBabylon.Musig.Musig

/-!
# The keys of a wallet policy

The key expressions of a template and the public keys they stand for at a change flag and an address
index. Key infos come from the client each time they are needed; the first derivation step of a key
is cached.
-/

namespace LedgerBabylon

open Endian Exec

abbrev FoundKeyexpr := Option (KeyExpr × Option PolicyNode)

/-- The number of key expressions of two parts and the one with index `i`, which is looked for in the
first part first. -/
def orNext {α : Type} (i : Nat) (first : Nat × Option α) (second : Nat → Nat × Option α) : Nat × Option α :=
  let found := i < first.1
  let next := second (if found then 0 else i - first.1)
  (first.1 + next.1, if found then first.2 else next.2)

mutual

/-- `get_keyexpr_by_index`: the number of key expressions, and the one with index `i`. -/
def getKeyexprByIndex : PolicyNode → Nat → Nat × FoundKeyexpr
  | .constant _ _, _ | .withHash _ _ _, _ | .withUint32 _ _ _, _ => (0, none)
  | .withKey _ _ key, i => (1, if i = 0 then some (key, none) else none)
  | .tr key tree, i =>
    let rest := getKeyexprByIndexInTr tree (if i = 0 then 0 else i - 1)
    (1 + rest.1, if i = 0 then some (key, none) else rest.2)
  | .multisig _ _ _ keys, i => (keys.length, keys[i]?.map fun key => (key, none))
  | .sh script, i | .wsh script, i | .wrapper _ _ script, i => getKeyexprByIndex script i
  | .withScript2 _ _ x y, i => orNext i (getKeyexprByIndex x i) (getKeyexprByIndex y)
  | .andor _ x y z, i =>
    orNext i (orNext i (getKeyexprByIndex x i) (getKeyexprByIndex y)) (getKeyexprByIndex z)
  | .thresh _ _ scripts, i => getKeyexprByIndexInList scripts i

def getKeyexprByIndexInList : List PolicyNode → Nat → Nat × FoundKeyexpr
  | [], _ => (0, none)
  | x :: xs, i => orNext i (getKeyexprByIndex x i) (getKeyexprByIndexInList xs)

def getKeyexprByIndexInTree : PolicyTree PolicyNode → Nat → Nat × FoundKeyexpr
  | .leaf script, i =>
    let inScript := getKeyexprByIndex script i
    (inScript.1, inScript.2.map fun found => (found.1, some script))
  | .branch l r, i => orNext i (getKeyexprByIndexInTree l i) (getKeyexprByIndexInTree r)

def getKeyexprByIndexInTr : Option (PolicyTree PolicyNode) → Nat → Nat × FoundKeyexpr
  | none, _ => (0, none)
  | some tree, i => getKeyexprByIndexInTree tree i

end

mutual

def PolicyNode.keyexprs : PolicyNode → List (KeyExpr × Option PolicyNode)
  | .constant _ _ | .withHash _ _ _ | .withUint32 _ _ _ => []
  | .withKey _ _ key => [(key, none)]
  | .tr key tree => (key, none) :: keyexprsTr tree
  | .multisig _ _ _ keys => keys.map fun key => (key, none)
  | .sh script | .wsh script | .wrapper _ _ script => script.keyexprs
  | .withScript2 _ _ x y => x.keyexprs ++ y.keyexprs
  | .andor _ x y z => x.keyexprs ++ y.keyexprs ++ z.keyexprs
  | .thresh _ _ scripts => keyexprsList scripts

def keyexprsList : List PolicyNode → List (KeyExpr × Option PolicyNode)
  | [] => []
  | x :: xs => x.keyexprs ++ keyexprsList xs

def keyexprsTree : PolicyTree PolicyNode → List (KeyExpr × Option PolicyNode)
  | .leaf script => script.keyexprs.map fun found => (found.1, some script)
  | .branch l r => keyexprsTree l ++ keyexprsTree r

def keyexprsTr : Option (PolicyTree PolicyNode) → List (KeyExpr × Option PolicyNode)
  | none => []
  | some tree => keyexprsTree tree

end

def foundIn {α : Type} (keys : List α) (i : Nat) : Nat × Option α := (keys.length, keys[i]?)

theorem orNext_foundIn {α : Type} (keys keys' : List α) (i : Nat) :
    orNext i (foundIn keys i) (foundIn keys') = foundIn (keys ++ keys') i := by
  by_cases hi : i < keys.length
  · simp [orNext, foundIn, hi, List.getElem?_append_left]
  · simp [orNext, foundIn, hi, List.getElem?_append_right (Nat.le_of_not_lt hi)]

theorem getKeyexprByIndexInList_eq {xs : List PolicyNode}
    (h : ∀ x ∈ xs, getKeyexprByIndex x = foundIn x.keyexprs) :
    getKeyexprByIndexInList xs = foundIn (keyexprsList xs) := by
  induction xs with
  | nil => rfl
  | cons x xs ih =>
    obtain ⟨hx, hxs⟩ := List.forall_mem_cons.mp h
    funext i
    rw [getKeyexprByIndexInList, keyexprsList, hx, ih hxs, orNext_foundIn]

theorem getKeyexprByIndexInTree_eq {tree : PolicyTree PolicyNode}
    (h : ∀ x ∈ tree.leaves, getKeyexprByIndex x = foundIn x.keyexprs) :
    getKeyexprByIndexInTree tree = foundIn (keyexprsTree tree) := by
  induction tree with
  | leaf script =>
    funext i
    simp [getKeyexprByIndexInTree, keyexprsTree, h script (by simp [PolicyTree.leaves]), foundIn]
  | branch l r ihl ihr =>
    obtain ⟨hl, hr⟩ := List.forall_mem_append.mp h
    funext i
    rw [getKeyexprByIndexInTree, keyexprsTree, ihl hl, ihr hr, orNext_foundIn]

theorem getKeyexprByIndex_eq (policy : PolicyNode) : getKeyexprByIndex policy = foundIn policy.keyexprs := by
  induction policy using PolicyNode.induction with
  | tr key tree ih =>
    funext i
    have htree : getKeyexprByIndexInTr tree = foundIn (keyexprsTr tree) := by
      cases tree with
      | none => rfl
      | some tree => exact getKeyexprByIndexInTree_eq (ih tree rfl)
    rw [getKeyexprByIndex, htree, PolicyNode.keyexprs]
    cases i with
    | zero => simp [foundIn, Nat.add_comm]
    | succ i => simp [foundIn, Nat.add_comm]
  | withKey flags token key =>
    funext i
    cases i <;> rfl
  | multisig flags token k keys =>
    funext i
    simp [getKeyexprByIndex, PolicyNode.keyexprs, foundIn]
  | sh x ih | wsh x ih | wrapper flags token x ih =>
    funext i
    rw [getKeyexprByIndex, ih, PolicyNode.keyexprs]
  | withScript2 flags token x y hx hy =>
    funext i
    rw [getKeyexprByIndex, hx, hy, orNext_foundIn, PolicyNode.keyexprs]
  | andor flags x y z hx hy hz =>
    funext i
    rw [getKeyexprByIndex, hx, hy, hz, orNext_foundIn, orNext_foundIn, PolicyNode.keyexprs]
  | thresh flags k xs ih =>
    funext i
    rw [getKeyexprByIndex, getKeyexprByIndexInList_eq ih, PolicyNode.keyexprs]
  | _ => rfl

def getPolicySegwitVersion : PolicyNode → Int
  | .tr _ _ => 1
  | .sh (.withKey _ .wpkh _) | .sh (.wsh _) => 0
  | .withKey _ .wpkh _ | .wsh _ => 0
  | _ => -1

/-- `sign_psbt_cache_t`: the derived first steps, by index of the key expression and change flag. -/
structure SignPsbtCache where
  derivedChild : Nat → Bool → Option ExtPubkey

def SignPsbtCache.empty : SignPsbtCache := ⟨fun _ _ => none⟩

def SignPsbtCache.insert (cache : SignPsbtCache) (index : Nat) (isChange : Bool) (key : ExtPubkey) :
    SignPsbtCache :=
  ⟨fun i c => if i = index ∧ c = isChange then some key else cache.derivedChild i c⟩

/-- The uses of arrays whose positions or lengths depend on what the client sends. -/
inductive ArrayUse where
  /-- a bit of `internal_outputs` -/
  | internalOutput (position : Nat)
  /-- a step of the origin of a key info -/
  | originStep (position : Nat)
  /-- a step of `sign_path` -/
  | signStep (position : Nat)
  /-- the length of an output script that is copied or hashed -/
  | outputScript (length : Nat)
  /-- the length of a key info that is parsed -/
  | keyInfo (length : Nat)
  deriving DecidableEq, Repr

def errorAsLength (code : Int) : Nat := (code % 2 ^ 32).toNat

structure Session (σ : Type) where
  env : σ
  cache : SignPsbtCache
  uses : List ArrayUse

abbrev Query (σ : Type) := EStateM Fault (Session σ)

variable {σ α : Type}

def ask (x : Ask σ α) : Query σ α := fun s =>
  match x s.env with
  | .ok a e => .ok a { s with env := e }
  | .error fault e => .error fault { s with env := e }

def useArrays (uses : List ArrayUse) : Query σ Unit := modify fun s => { s with uses := s.uses ++ uses }

structure WalletDerivationInfo where
  walletVersion : Nat
  keysMerkleRoot : Digest
  nKeys : Nat
  change : Bool
  addressIndex : UInt32
  useCache : Bool

def PolicyMapWalletHeader.derivation (header : PolicyMapWalletHeader) (change : Bool)
    (addressIndex : UInt32) (useCache : Bool) : WalletDerivationInfo :=
  ⟨header.version, header.keysInfoMerkleRoot, header.nKeys, change, addressIndex, useCache⟩

structure MusigPerInputInfo where
  keys : List Bytes
  aggKeyTweaked : Bytes
  /-- the tweaks, each with whether it is x-only -/
  tweaks : List (Bytes × Bool)
  psbtSessionId : Digest

/-- The SDK, the environment, the contents of memory that is read before it is written, and what is used
through its results only: MuSig2, the texts for output scripts, and the authentication of policies. -/
structure Device (σ : Type) where
  crypto : Crypto
  env : Environment σ
  /-- whether the application is built for a device with `HAVE_NBGL` -/
  nbgl : Bool
  /-- what the array for the descriptor template holds before it is written -/
  uninitialised : Memory
  /-- what the array for the serialized policy holds before it is written -/
  policyMemory : Memory := fun _ => 0
  /-- what else is in the memory to which the keys of a node are written -/
  keyMemory : List KeyExpr → Memory := fun _ _ => 0
  /-- what `musig_per_input_info` holds before it is written, by input and key expression -/
  musigMemory (input keyexpr : Nat) : MusigPerInputInfo := ⟨[], [], [], .ofNat 0⟩
  /-- what lies behind the arrays of the sanity checks, which are read with any index -/
  overread : Nat → Int16
  /-- `format_script` -/
  formatScript : Bytes → Option Bytes
  /-- `musig_key_agg`: the compressed aggregate key, or of the sum so far if it fails -/
  musigKeyAgg : List Bytes → Bytes
  /-- `musig_nonce_agg`: whether it succeeds, and what is in the aggregate nonce after it -/
  musigNonceAgg : List MusigPubnonce → Bool × MusigPubnonce
  /-- `musig_nonce_gen` from randomness, own key and aggregate key: the secret nonce -/
  musigNonceGen (rand pk aggpk : Bytes) : Option MusigSecnonce
  musigSign (secnonce : MusigSecnonce) (sk : Nat) (ctx : MusigSessionContext) : Option Nat
  /-- `compute_wallet_hmac` -/
  walletHmac : Digest → Bytes

variable (dev : Device σ)

def parseKeyInfo (version : Nat) (info : Bytes) : Query σ (Bool × PolicyMapKeyInfo) := do
  useArrays (.keyInfo info.length ::
    (List.range (keyInfoStepsWritten dev.crypto.sha256 version info)).map .originStep)
  match parsePolicyMapKeyInfo dev.crypto.sha256 version info with
  | none => throw .undefinedBehaviour
  | some result => return result

/-- The key info with the given index. Only the error -1 of the fetch is checked; any other is taken
for the length of the key info. -/
def fetchKeyInfo (version : Nat) (root : Digest) (nKeys keyIndex : Nat) :
    Query σ (Bool × PolicyMapKeyInfo) := do
  match ← ask (attempt (dev.env.leafElement root (UInt32.ofNat nKeys) (UInt32.ofNat keyIndex)
      maxPolicyKeyInfoLen)) with
  | .ok info => parseKeyInfo dev version info
  | .error code =>
    if code = -1 then throw (.ret (-1))
    else do
      useArrays [.keyInfo (errorAsLength code)]
      throw .undefinedBehaviour

/-- What a key info gives to a script: the number of its origin steps, which counts as zero if the
fingerprint is a marker, and the key. -/
def scriptKey (keyInfo : PolicyMapKeyInfo) : Nat × ExtPubkey :=
  (if getFingerprint keyInfo.masterKeyFingerprint = .other then keyInfo.masterKeyDerivation.length
    else 0, keyInfo.extPubkey)

def getExtendedPubkeyFromClient (wdi : WalletDerivationInfo) (keyIndex : Nat) :
    Query σ (Nat × ExtPubkey) := do
  let (ok, keyInfo) ← fetchKeyInfo dev wdi.walletVersion wdi.keysMerkleRoot wdi.nKeys keyIndex
  if ok then return scriptKey keyInfo else throw (.ret (-1))

def ofOption : Option α → Query σ α
  | some a => pure a
  | none => throw (.ret (-1))

def maxCachedKeyExpressions : Nat := 16

def KeyExpr.changeStep (keyExpr : KeyExpr) (isChange : Bool) : UInt32 :=
  if isChange then keyExpr.numSecond else keyExpr.numFirst

def deriveFirstStepForPubkey (base : ExtPubkey) (keyExpr : KeyExpr) (useCache isChange : Bool) :
    Query σ ExtPubkey := do
  let s ← get
  let index := keyExpr.keyexprIndex.toNat
  if maxCachedKeyExpressions ≤ index ∨ !useCache then
    let (child, _) ← ofOption (dev.crypto.bip32CKDpub base (keyExpr.changeStep isChange))
    return child
  else
    match s.cache.derivedChild index isChange with
    | some child => return child
    | none => do
      let (child, _) ← ofOption (dev.crypto.bip32CKDpub base (keyExpr.changeStep isChange))
      modify fun s => { s with cache := s.cache.insert index isChange child }
      return child

def bip328Chaincode : Bytes :=
  [0x86, 0x80, 0x87, 0xCA, 0x02, 0xA6, 0xF9, 0x74, 0xC4, 0x59, 0x89, 0x24, 0xC3, 0x6B, 0x57, 0x76,
    0x2D, 0x32, 0xCB, 0x45, 0x71, 0x71, 0x67, 0xE3, 0x00, 0x62, 0x2C, 0x71, 0x67, 0xE3, 0x89, 0x65]

def sortKeys (keys : List Bytes) : List Bytes := keys.mergeSort fun a b => !byteArrayLt b a

/-- The extended key of an aggregate of the given keys. Whether the aggregation succeeds is not
checked. -/
def aggregateXpub (keys : List Bytes) : ExtPubkey :=
  ⟨dev.crypto.pubkeyVersion, 0, 0, 0, bip328Chaincode, dev.musigKeyAgg (sortKeys keys)⟩

def musigClientKeys (wdi : WalletDerivationInfo) : List Nat → Query σ (List Bytes)
  | [] => return []
  | index :: indexes => do
    let (_, key) ← getExtendedPubkeyFromClient dev wdi index
    let keys ← musigClientKeys wdi indexes
    return key.compressedPubkey :: keys

def keyexprRoot (wdi : WalletDerivationInfo) : KeyExpressionType → Query σ (Nat × ExtPubkey)
  | .normal keyIndex => getExtendedPubkeyFromClient dev wdi keyIndex
  | .musig keyIndexes => do
    let keys ← musigClientKeys dev wdi keyIndexes
    return (0, aggregateXpub dev keys)
  | .unreadable => throw .undefinedBehaviour

def getDerivedPubkey (wdi : WalletDerivationInfo) (keyExpr : KeyExpr) : Query σ Bytes := do
  let (deriveLen, extPubkey) ← keyexprRoot dev wdi keyExpr.type
  if 0 < deriveLen then
    let child ← deriveFirstStepForPubkey dev extPubkey keyExpr wdi.useCache wdi.change
    let (child, _) ← ofOption (dev.crypto.bip32CKDpub child wdi.addressIndex)
    return child.compressedPubkey
  else return extPubkey.compressedPubkey

end LedgerBabylon
