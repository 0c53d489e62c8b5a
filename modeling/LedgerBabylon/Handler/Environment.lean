import LedgerBabylon.Handler.RawTx
import LedgerBabylon.Crypto

/-!
# The surroundings of the signing flow

The signing flow learns everything through a few calls: it fetches what the client has committed to,
yields results to it, asks the user, and keeps MuSig2 sessions in persistent memory. An environment
implements these calls over a state of its own. The client commands of the device are one; a client that
holds a PSBT is another.
-/

namespace LedgerBabylon

open Endian

structure Warnings where
  missingNonwitnessutxo : Bool
  nonDefaultSighash : Bool
  highFee : Bool
  deriving DecidableEq, Repr

inductive KeyType where
  | external
  | internal
  | unspendable
  deriving DecidableEq, Repr

inductive Screen where
  | registerWallet (name descriptor : Bytes)
  | cosignerPubkey (info : Bytes) (index total : Nat) (type : KeyType)
  | registerWalletPolicy (name descriptor : Bytes) (keys : List (Bytes × KeyType))
  | warnUnverifiedSegwitInputs
  | warnNondefaultSighash
  | warnHighFee
  | transactionPrompt
  | authorizeWalletSpend (name : Bytes)
  | confirmFinalityPk (pk : Bytes)
  | confirmLeafhash (leafhash : Bytes)
  | validateOutput (index total : Nat) (description : Bytes) (amount : UInt64)
  | validateTransaction (fee : UInt64) (isSelfTransfer : Bool)
  | validateTransactionSimplified (name : Bytes) (amount : UInt64)
      (description : Option Bytes) (warnings : Warnings) (fee : UInt64)
  deriving DecidableEq, Repr

structure Prevout where
  value : UInt64
  scriptPubKey : Bytes
  txid : Digest

abbrev Ask (σ : Type) := EStateM Fault σ

structure Environment (σ : Type) where
  /-- `call_get_preimage`: the returned length and the bytes written -/
  preimage (hash : Digest) (outLen : Nat) : Ask σ (Nat × Bytes)
  /-- `call_get_merkle_leaf_element` -/
  leafElement (root : Digest) (size index : UInt32) (outLen : Nat) : Ask σ Bytes
  /-- `call_get_merkleized_map_value` -/
  mapValue (map : MerkleizedMapCommitment) (key : Bytes) (outLen : Nat) : Ask σ Bytes
  /-- `call_stream_merkleized_map_value`: the announced length and the streamed bytes -/
  streamMapValue (map : MerkleizedMapCommitment) (key : Bytes) : Ask σ (Nat × Bytes)
  /-- `call_psbt_parse_rawtx` -/
  rawtx (map : MerkleizedMapCommitment) (key : Bytes) (outputIndex : UInt32) : Ask σ Prevout
  /-- `extract_bip32_derivation`: the fingerprint and the steps -/
  bip32Derivation (keyType : UInt8) (valuesRoot : Digest) (size index : UInt32) : Ask σ (UInt32 × List UInt32)
  /-- a response with `SW_INTERRUPTED_EXECUTION`, after which the client continues -/
  yield (response : Bytes) : Ask σ Unit
  /-- `SEND_SW`, and `SEND_SW_EC` with an error code -/
  sendSw (sw : Nat) (ec : Option Nat) : Ask σ Unit
  /-- a screen of the user interface; the result says whether the user accepts -/
  confirm (screen : Screen) : Ask σ Bool
  /-- `musigsession_round2_initialize`: the root of the session's randomness, if it exists -/
  musigRound2 (psbtSessionId : Digest) : Ask σ (Option Bytes)

def attempt {σ α : Type} (x : Ask σ α) : Ask σ (Except Int α) := fun s =>
  match x s with
  | .ok a s' => .ok (.ok a) s'
  | .error (.ret code) s' => .ok (.error code) s'
  | .error fault s' => .error fault s'

def Environment.mapValueU32Le {σ : Type} (env : Environment σ) (map : MerkleizedMapCommitment)
    (key : Bytes) : Ask σ UInt32 := do
  match ← attempt (env.mapValue map key 4) with
  | .error _ => throw (.ret (-1))
  | .ok raw => if raw.length = 4 then return UInt32.ofNat (leNat raw) else throw (.ret (-1))

end LedgerBabylon
