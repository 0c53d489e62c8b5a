import LedgerBabylon.Common.PolicyParser
import LedgerBabylon.Common.Merkle

/-!
# Key infos and wallet policy headers

A key info is an extended public key in base 58, after an optional origin: the fingerprint of the
master key and the derivation steps from it. Some fingerprints mark keys that are not keys of the
wallet but data of a Babylon action. The parser of key infos fills its result as it goes, and one of
its callers uses the result of a failed parse.
-/

namespace LedgerBabylon

open Endian Exec

structure ExtPubkey where
  version : UInt32
  depth : UInt8
  parentFingerprint : UInt32
  childNumber : UInt32
  chainCode : Bytes
  compressedPubkey : Bytes
  deriving DecidableEq, Repr

namespace ExtPubkey

def ofBytes (bytes : Bytes) : ExtPubkey where
  version := UInt32.ofNat (beNat (bytes.take 4))
  depth := bytes.getD 4 0
  parentFingerprint := UInt32.ofNat (beNat ((bytes.drop 5).take 4))
  childNumber := UInt32.ofNat (beNat ((bytes.drop 9).take 4))
  chainCode := (bytes.drop 13).take 32
  compressedPubkey := (bytes.drop 45).take 33

def zero : ExtPubkey := ofBytes (List.replicate 78 0)

def xOnly (k : ExtPubkey) : Bytes := k.compressedPubkey.drop 1

end ExtPubkey

def base58Value (c : UInt8) : Option Nat :=
  let c := c.toNat
  if 0x31 ≤ c ∧ c ≤ 0x39 then some (c - 0x31)
  else if 0x41 ≤ c ∧ c ≤ 0x48 then some (c - 0x41 + 9)
  else if 0x4A ≤ c ∧ c ≤ 0x4E then some (c - 0x4A + 17)
  else if 0x50 ≤ c ∧ c ≤ 0x5A then some (c - 0x50 + 22)
  else if 0x61 ≤ c ∧ c ≤ 0x6B then some (c - 0x61 + 33)
  else if 0x6D ≤ c ∧ c ≤ 0x7A then some (c - 0x6D + 44)
  else none

/-- One division of base-58 digits by 256: the digits of the quotient, and the remainder. Nothing wraps
around in 16 bits. -/
def base58Divide : List Nat → Nat → List Nat × Nat
  | [], remainder => ([], remainder)
  | digit :: digits, remainder =>
    let tmpDiv := remainder * 58 + digit
    let (quotient, rest) := base58Divide digits (tmpDiv % 256)
    (tmpDiv / 256 :: quotient, rest)

/-- The remainders of repeated division, the last one first; `position` is the free part of the buffer
in front of them. -/
def base58Remainders : Nat → List Nat → Bytes → Bytes
  | _, [], buffer => buffer
  | 0, _ :: _, buffer => buffer
  | position + 1, digits, buffer =>
    let (quotient, remainder) := base58Divide digits 0
    let digits := if quotient.headD 0 = 0 then quotient.tail else quotient
    base58Remainders position digits (UInt8.ofNat remainder :: buffer)

def maxDecInputSize : Nat := 164

def base58Decode (input : Bytes) (outLen : Nat) : Option Bytes := do
  if maxDecInputSize < input.length ∨ input.length < 2 then none
  let digits ← input.mapM base58Value
  let zeros := digits.takeWhile (· = 0)
  let buffer := base58Remainders input.length (digits.drop zeros.length) []
  let out := zeros.map UInt8.ofNat ++ buffer.dropWhile (· = 0)
  if outLen < out.length then none else some out

def maxBip32PathSteps : Nat := 8

def maxPolicyKeyInfoLen : Nat := 46 + 113 + 3

def bip32FirstHardenedChild : UInt32 := 0x80000000

structure PolicyMapKeyInfo where
  masterKeyDerivation : List UInt32
  masterKeyFingerprint : Bytes
  hasKeyOrigin : Bool
  hasWildcard : Bool
  extPubkey : ExtPubkey
  deriving DecidableEq, Repr

def PolicyMapKeyInfo.zero : PolicyMapKeyInfo := ⟨[], [0, 0, 0, 0], false, false, .zero⟩

inductive KeyInfoError where
  | failed
  | undefinedBehaviour
  deriving DecidableEq

/-- The unread text, the result so far, and how many positions of the array for the derivation steps
have been written. -/
structure KeyInfoState where
  input : Bytes
  out : PolicyMapKeyInfo
  written : Nat

abbrev KeyInfoParse := EStateM KeyInfoError KeyInfoState

namespace KeyInfo

def check (b : Bool) : KeyInfoParse Unit := if b then pure () else throw .failed

def scan {α : Type} (x : Parse α) : KeyInfoParse α := fun s =>
  match x ⟨s.input, 0, 0⟩ with
  | .ok a p => .ok a { s with input := p.input }
  | .error _ p => .error .failed { s with input := p.input }

def fill (f : PolicyMapKeyInfo → PolicyMapKeyInfo) : KeyInfoParse Unit :=
  modify fun s => { s with out := f s.out }

def readFingerprintByte (i : Nat) : KeyInfoParse Unit := do
  let num ← scan (bufferReadHexHash 1)
  fill fun out => { out with masterKeyFingerprint := out.masterKeyFingerprint.set i (num.headD 0) }

def bufferReadDerivationStep : KeyInfoParse UInt32 := do
  let step ← scan (parseUnsignedDecimal 32)
  check (step < bip32FirstHardenedChild)
  let hardened ← scan (consumeCharacter 0x27)
  return if hardened then step ||| bip32FirstHardenedChild else step

def writeStep (step : UInt32) : KeyInfoParse Unit :=
  modify fun s => { s with
    out := { s.out with masterKeyDerivation := s.out.masterKeyDerivation ++ [step] }
    written := s.written + 1 }

/-- The loop over the steps, with room for so many more. The check lets one step too many through, which
is written behind the array. -/
def readDerivationSteps : Nat → KeyInfoParse Unit
  | 0 => do
    let more ← scan (consumeCharacter 0x2F)
    if more then
      let step ← bufferReadDerivationStep
      writeStep step
      throw .undefinedBehaviour
  | room + 1 => do
    let more ← scan (consumeCharacter 0x2F)
    if more then
      let step ← bufferReadDerivationStep
      writeStep step
      readDerivationSteps room

def readKeyOrigin : KeyInfoParse Unit := do
  fill fun out => { out with hasKeyOrigin := true }
  let s ← get
  check (9 ≤ s.input.length)
  readFingerprintByte 0
  readFingerprintByte 1
  readFingerprintByte 2
  readFingerprintByte 3
  readDerivationSteps maxBip32PathSteps
  scan (expectCharacter 0x5D)

def readKeyOriginIfAny : KeyInfoParse Unit := do
  let found ← scan (consumeCharacter 0x5B)
  if found then readKeyOrigin

def maxSerializedPubkeyLength : Nat := 113

/-- The characters of the extended public key. With the most that are read, the terminating zero is
written behind the array. -/
def readPubkeyString : KeyInfoParse Bytes := do
  let s ← get
  let word := (s.input.take maxSerializedPubkeyLength).takeWhile isAlphanumeric
  set { s with input := s.input.drop word.length }
  if word.length = maxSerializedPubkeyLength then throw .undefinedBehaviour
  else return word

def decodePubkey (sha256 : Bytes → Digest) (word : Bytes) : KeyInfoParse ExtPubkey :=
  match base58Decode word 82 with
  | none => throw .failed
  | some raw =>
    if raw.length < 82 then throw .undefinedBehaviour
    else if (sha256 (sha256 (raw.take 78)).bytes).bytes.take 4 ≠ raw.drop 78 then throw .failed
    else return ExtPubkey.ofBytes (raw.take 78)

def readWildcard (version : Nat) : KeyInfoParse Unit := do
  let s ← get
  if s.input = [] then check (version ≠ 1)
  else do
    check (version ≠ 2)
    fill fun out => { out with hasWildcard := true }
    check (s.input = text "/**")

def parse (sha256 : Bytes → Digest) (version : Nat) : KeyInfoParse Unit := do
  check (version = 1 ∨ version = 2)
  readKeyOriginIfAny
  let word ← readPubkeyString
  check (111 ≤ word.length ∧ word.length ≤ 112)
  let extPubkey ← decodePubkey sha256 word
  fill fun out => { out with extPubkey }
  readWildcard version

end KeyInfo

/-- `parse_policy_map_key_info`: whether it succeeded, and what it left in its result either way, which
is zeros at first. There is no result if its behaviour is undefined. -/
def parsePolicyMapKeyInfo (sha256 : Bytes → Digest) (version : Nat) (info : Bytes) :
    Option (Bool × PolicyMapKeyInfo) :=
  match KeyInfo.parse sha256 version ⟨info, .zero, 0⟩ with
  | .ok _ s => some (true, s.out)
  | .error .failed s => some (false, s.out)
  | .error .undefinedBehaviour _ => none

def keyInfoStepsWritten (sha256 : Bytes → Digest) (version : Nat) (info : Bytes) : Nat :=
  (finalState (KeyInfo.parse sha256 version) ⟨info, .zero, 0⟩).written

inductive FingerPrintType where
  | null
  | leafHashDisplay
  | leafHashCheck
  | finalityPub
  | other
  deriving DecidableEq, Repr

def getFingerprint (fingerprint : Bytes) : FingerPrintType :=
  if fingerprint = [0x00, 0x00, 0x00, 0x00] then .null
  else if fingerprint = [0x69, 0x84, 0x6D, 0x00] then .leafHashDisplay
  else if fingerprint = [0x3B, 0x9F, 0x96, 0x80] then .leafHashCheck
  else if fingerprint = [0xFF, 0x11, 0x94, 0x73] then .finalityPub
  else .other

def maxWalletNameLength : Nat := 64
def maxDescriptorTemplateLengthV1 : Nat := 40
def maxDescriptorTemplateLengthV2 : Nat := 512

structure PolicyMapWalletHeader where
  version : Nat
  name : Bytes
  descriptorTemplateLen : Nat
  /-- the template itself in V1, its hash in V2 -/
  descriptorTemplate : Bytes ⊕ Digest
  nKeys : Nat
  keysInfoMerkleRoot : Digest

def readHeaderTemplate (version len : Nat) (m : Memory) (b : Buffer) : Option ((Bytes ⊕ Digest) × Buffer) :=
  if version = 1 then do
    if maxDescriptorTemplateLengthV1 < len then none
    let (template, b) ← b.readBytes len m
    return (.inl template, b)
  else do
    if maxDescriptorTemplateLengthV2 < len then none
    let (hash, b) ← b.take 32 (Digest.ofMemory m)
    return (.inr hash, b)

def readWalletPolicyHeader (raw : Bytes) : Option PolicyMapWalletHeader := do
  let m := Memory.ofList raw
  let (version, b) ← Buffer.readU8 m (Buffer.create 0 raw.length)
  if version ≠ 1 ∧ version ≠ 2 then none
  let (nameLen, b) ← b.readU8 m
  if maxWalletNameLength < nameLen.toNat then none
  let (name, b) ← b.readBytes nameLen.toNat m
  let (templateLen, b) ← b.readVarint m
  let (template, b) ← readHeaderTemplate version.toNat templateLen m b
  let (nKeys, b) ← b.readVarint m
  if 252 < nKeys then none
  let (root, _) ← b.take 32 (Digest.ofMemory m)
  return ⟨version.toNat, name, templateLen, template, nKeys, root⟩

inductive PolicyType where
  | unknown
  | slashing1
  | slashing2
  | slashing3
  | stakeTransfer
  | unbound
  | withdraw
  deriving DecidableEq, Repr

def PolicyType.step : PolicyType → Int
  | .unknown => -1
  | .slashing1 => 0
  | .slashing2 => 1
  | .slashing3 => 2
  | .stakeTransfer => 3
  | .unbound => 4
  | .withdraw => 5

def actionNames : List (Bytes × PolicyType) :=
  [(text "Consent to slashing", .slashing1), (text "Stake / Step 1", .slashing2),
    (text "Stake / Step 2", .slashing3), (text "Stake Transfer", .stakeTransfer),
    (text "Unbond", .unbound), (text "Withdraw", .withdraw)]

def cString (s : Bytes) : Bytes := s.takeWhile (· ≠ 0)

def getActionStep (name : Bytes) : PolicyType :=
  match actionNames.find? fun action => (cString name).isPrefixOf action.1 with
  | some action => action.2
  | none => .unknown

def descriptorSlashing3 : Bytes :=
  text "tr(@0/**,and_v(pk_k(@1/**),and_v(pk_k(@2/**),multi_a(6,@3/**,@4/**,@5/**,@6/**,@7/**,@8/**,@9/**,@10/**,@11/**))))"

def descriptorStakeTransfer : Bytes := text "tr(@0/**)"

def descriptorUnbound : Bytes :=
  text "tr(@0/**,and_v(pk_k(@1/**),multi_a(6,@2/**,@3/**,@4/**,@5/**,@6/**,@7/**,@8/**,@9/**,@10/**)))"

def descriptorWithdraw : Bytes := text "tr(@0/**,and_v(pk_k(@1/**),older"

def strcmpEq (descriptor : Memory) (expected : Bytes) : Bool :=
  descriptor.read 0 (expected.length + 1) = expected ++ [0]

def checkDescriptor (descriptor : Memory) : PolicyType → Bool
  | .slashing1 | .slashing2 | .slashing3 => strcmpEq descriptor descriptorSlashing3
  | .stakeTransfer => strcmpEq descriptor descriptorStakeTransfer
  | .unbound => strcmpEq descriptor descriptorUnbound
  | .withdraw => descriptor.read 0 descriptorWithdraw.length = descriptorWithdraw
  | .unknown => false

end LedgerBabylon
