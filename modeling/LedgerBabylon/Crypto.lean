import LedgerBabylon.Common.Base58
import LedgerBabylon.Common.KeyInfo

/-!
# Keys, derivation and tweaks

The operations of the SDK on hashes, curve points and secret keys are parameters. What the
application computes from them is written out: extended public keys, public derivation, fingerprints,
tagged hashes and the taproot tweaks.
-/

namespace LedgerBabylon

open Endian

structure Crypto where
  /-- `BIP32_PUBKEY_VERSION`, which depends on the network -/
  pubkeyVersion : UInt32
  sha256 : Bytes → Digest
  ripemd160 : Bytes → Bytes
  hmacSha512 (key message : Bytes) : Bytes
  /-- the key `k * G + K`, unless `k` is not below the group order or the sum is at infinity -/
  addPoint (k pubkey : Bytes) : Option Bytes
  /-- the same for the even point with the given x coordinate; the parity and the x coordinate -/
  addPointXonly (k x : Bytes) : Option (UInt8 × Bytes)
  /-- `bip32_derive_get_pubkey_256`: public key and chain code -/
  pubkeyAtPath (path : List UInt32) : Option (Bytes × Bytes)
  /-- `bip32_derive_init_privkey_256` -/
  privkeyAtPath (path : List UInt32) : Option Bytes
  /-- `cx_ecfp_generate_pair_no_throw` -/
  pubkeyOf (seckey : Bytes) : Option Bytes
  ecdsaSign (seckey hash : Bytes) : Option Bytes
  schnorrSign (seckey hash : Bytes) : Option Bytes

namespace Crypto

variable (crypto : Crypto)

def hash160 (message : Bytes) : Bytes := crypto.ripemd160 (crypto.sha256 message).bytes

def getChecksum (message : Bytes) : Bytes := (crypto.sha256 (crypto.sha256 message).bytes).bytes.take 4

/-- `base58_encode_address`, with the shortest of the widths that the version fits in. -/
def base58EncodeAddress (input : Bytes) (version outLen : Nat) : Option Bytes :=
  let versionLen := if version < 256 then 1 else if version < 65536 then 2 else 4
  let tmp := beBytes versionLen version ++ input.take 20
  base58Encode (tmp ++ crypto.getChecksum tmp) outLen

def taggedHash (tag message : Bytes) : Digest :=
  let hashtag := (crypto.sha256 tag).bytes
  crypto.sha256 (hashtag ++ hashtag ++ message)

def keyFingerprint (pubkey : Bytes) : UInt32 := UInt32.ofNat (beNat ((crypto.hash160 pubkey).take 4))

/-- There is none if the master key cannot be derived: the source does not check that. -/
def masterKeyFingerprint : Option UInt32 :=
  (crypto.pubkeyAtPath []).map fun key => crypto.keyFingerprint key.1

/-- The fingerprint of a path's parent key and its last step; both are zero for the master key. -/
def parentInfo (path : List UInt32) : Option (UInt32 × UInt32) :=
  match path.getLast? with
  | none => some (0, 0)
  | some step => do
    let (parent, _) ← crypto.pubkeyAtPath path.dropLast
    return (crypto.keyFingerprint parent, step)

def getExtendedPubkeyAtPath (path : List UInt32) : Option ExtPubkey := do
  let (parentFingerprint, childNumber) ← crypto.parentInfo path
  let (compressedPubkey, chainCode) ← crypto.pubkeyAtPath path
  return ⟨crypto.pubkeyVersion, UInt8.ofNat path.length, parentFingerprint, childNumber, chainCode,
    compressedPubkey⟩

def childHash (parent : ExtPubkey) (index : UInt32) : Bytes :=
  crypto.hmacSha512 parent.chainCode (parent.compressedPubkey ++ beBytes 4 index.toNat)

def bip32CKDpub (parent : ExtPubkey) (index : UInt32) : Option (ExtPubkey × Bytes) := do
  if bip32FirstHardenedChild ≤ index then none
  if parent.depth = 255 then none
  let i := crypto.childHash parent index
  let child ← crypto.addPoint (i.take 32) parent.compressedPubkey
  return (⟨parent.version, parent.depth + 1, crypto.keyFingerprint parent.compressedPubkey, index,
    i.drop 32, child⟩, i.take 32)

theorem bip32CKDpub_eq_some_iff {parent : ExtPubkey} {index : UInt32} {child : ExtPubkey × Bytes} :
    crypto.bip32CKDpub parent index = some child ↔ index < bip32FirstHardenedChild ∧ parent.depth ≠ 255 ∧
      ∃ sum, crypto.addPoint ((crypto.childHash parent index).take 32) parent.compressedPubkey = some sum ∧
        child = (⟨parent.version, parent.depth + 1, crypto.keyFingerprint parent.compressedPubkey, index,
          (crypto.childHash parent index).drop 32, sum⟩, (crypto.childHash parent index).take 32) := by
  unfold bip32CKDpub
  by_cases hindex : bip32FirstHardenedChild ≤ index
  · simp [hindex, Std.not_lt.mpr hindex]
  · by_cases hdepth : parent.depth = 255
    · simp [hindex, hdepth]
    · simp only [hindex, hdepth, Std.not_le.mp hindex, if_false, ne_eq, not_false_eq_true, true_and]
      rw [Option.bind_eq_bind, Option.bind_eq_some_iff]
      simp only [Option.pure_def, Option.some.injEq, eq_comm]

def taptweakTag : Bytes := text "TapTweak"

def tapleafTag : Bytes := text "TapLeaf"

def trTweakPubkey (pubkey h : Bytes) : Option (UInt8 × Bytes) :=
  crypto.addPointXonly (crypto.taggedHash taptweakTag (pubkey ++ h)).bytes pubkey

def secp256k1N : Nat := 0xfffffffffffffffffffffffffffffffebaaedce6af48a03bbfd25e8cd0364141

/-- `crypto_tr_tweak_seckey` in place: what the memory holds afterwards, also when the call fails, which
is not checked. -/
def trTweakSeckey (seckey h : Bytes) : Bytes :=
  match crypto.pubkeyOf seckey with
  | none => seckey
  | some pubkey =>
    let odd := pubkey.headD 0 = 0x03
    let out := if odd then secp256k1N - beNat seckey else beNat seckey
    let t := beNat (crypto.taggedHash taptweakTag (pubkey.drop 1 ++ h)).bytes
    if secp256k1N ≤ t then beBytes 32 out else beBytes 32 ((out + t) % secp256k1N)

def ecdsaSignWithKey (path : List UInt32) (hash : Bytes) : Option (Bytes × Bytes) := do
  let seckey ← crypto.privkeyAtPath path
  let sig ← crypto.ecdsaSign seckey hash
  let pubkey ← crypto.pubkeyOf seckey
  return (pubkey, sig)

end Crypto

end LedgerBabylon
