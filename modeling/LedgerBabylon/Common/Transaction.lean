import LedgerBabylon.Common.Merkle

/-!
# Transactions and their serialization

What the bytes of a previous transaction mean, independently of the parser: the fields of a
transaction, its serialization with or without witnesses, and the serialization that the transaction
id is the hash of.
-/

namespace LedgerBabylon

open Endian List

def compactSize (n : Nat) : Bytes :=
  if n < 0xFD then [UInt8.ofNat n]
  else if n < 2 ^ 16 then 0xFD :: leBytes 2 n
  else if n < 2 ^ 32 then 0xFE :: leBytes 4 n
  else 0xFF :: leBytes 8 n

def withSize (data : Bytes) : Bytes := compactSize data.length ++ data

structure TxIn where
  prevTxid : Digest
  prevVout : UInt32
  scriptSig : Bytes
  sequence : UInt32

structure TxOut where
  value : UInt64
  scriptPubkey : Bytes

/-- A transaction. Without witnesses it has an input, as no inputs would be read as the segwit marker;
otherwise there is a stack of witness elements for each input. -/
structure Tx where
  version : UInt32
  inputs : List TxIn
  outputs : List TxOut
  witnesses : Option (List (List Bytes))
  locktime : UInt32
  inputs_ne_nil : witnesses = none → inputs ≠ []
  length_witnesses : ∀ ws ∈ witnesses, ws.length = inputs.length

def TxIn.serialize (i : TxIn) : Bytes :=
  i.prevTxid.bytes ++ leBytes 4 i.prevVout.toNat ++ withSize i.scriptSig ++ leBytes 4 i.sequence.toNat

def TxOut.serialize (o : TxOut) : Bytes := leBytes 8 o.value.toNat ++ withSize o.scriptPubkey

def serializeWitness (stack : List Bytes) : Bytes := compactSize stack.length ++ stack.flatMap withSize

namespace Tx

def serializeInOut (tx : Tx) : Bytes := compactSize tx.inputs.length ++ tx.inputs.flatMap TxIn.serialize
    ++ compactSize tx.outputs.length ++ tx.outputs.flatMap TxOut.serialize

def serializeNoWitness (tx : Tx) : Bytes :=
  leBytes 4 tx.version.toNat ++ tx.serializeInOut ++ leBytes 4 tx.locktime.toNat

def serialize (tx : Tx) : Bytes :=
  match tx.witnesses with
  | none => tx.serializeNoWitness
  | some ws => leBytes 4 tx.version.toNat ++ [0x00, 0x01] ++ tx.serializeInOut
      ++ ws.flatMap serializeWitness ++ leBytes 4 tx.locktime.toNat

end Tx

theorem varintWrite_eq_compactSize (n : Nat) : varintWrite n = compactSize n := by
  simp only [varintWrite, varintSize, compactSize]
  split_ifs <;> first | rfl | omega

theorem compactSize_length_pos (n : Nat) : 0 < (compactSize n).length := by
  simp only [compactSize]
  split_ifs <;> simp

theorem length_le_withSize (data : Bytes) : data.length ≤ (withSize data).length := by
  simp [withSize]

theorem length_le_flatMap {α : Type} {f : α → Bytes} (hf : ∀ x, 0 < (f x).length)
    (xs : List α) : xs.length ≤ (xs.flatMap f).length := by
  induction xs with
  | nil => simp
  | cons x xs ih =>
    have := hf x
    rw [flatMap_cons, length_append, length_cons]
    omega

theorem length_le_flatMap_of_mem {α : Type} {f : α → Bytes} {x : α} {xs : List α}
    (hx : x ∈ xs) : (f x).length ≤ (xs.flatMap f).length := by
  rw [flatMap_def]
  exact (sublist_flatten_of_mem (mem_map_of_mem hx)).length_le

theorem TxIn.length_scriptSig_le (i : TxIn) : i.scriptSig.length ≤ i.serialize.length := by
  have := length_le_withSize i.scriptSig
  simp only [TxIn.serialize, length_append]
  omega

theorem TxOut.length_scriptPubkey_le (o : TxOut) : o.scriptPubkey.length ≤ o.serialize.length := by
  have := length_le_withSize o.scriptPubkey
  simp only [TxOut.serialize, length_append]
  omega

theorem length_le_serializeWitness (stack : List Bytes) : stack.length ≤ (serializeWitness stack).length
      ∧ ∀ data ∈ stack, data.length ≤ (serializeWitness stack).length := by
  have hpos : ∀ data : Bytes, 0 < (withSize data).length := fun data => by
    have := compactSize_length_pos data.length
    simp only [withSize, length_append]
    omega
  have hcount := length_le_flatMap hpos stack
  simp only [serializeWitness, length_append]
  refine ⟨by omega, fun data hdata => ?_⟩
  have hmem := length_le_flatMap_of_mem (f := withSize) hdata
  have := length_le_withSize data
  omega

structure Tx.Within (bound : Nat) (tx : Tx) : Prop where
  inputs : tx.inputs.length < bound
  scriptSigs : ∀ i ∈ tx.inputs, i.scriptSig.length < bound
  outputs : tx.outputs.length < bound
  scriptPubkeys : ∀ o ∈ tx.outputs, o.scriptPubkey.length < bound
  witnesses : ∀ ws ∈ tx.witnesses, ∀ stack ∈ ws, stack.length < bound ∧ ∀ data ∈ stack, data.length < bound

theorem Tx.within_of_length_lt {tx : Tx} {bound : Nat} (h : tx.serialize.length < bound) :
    tx.Within bound := by
  have hinOut : tx.serializeInOut.length < bound := by
    rw [Tx.serialize] at h
    split at h <;> simp only [Tx.serializeNoWitness, length_append] at h <;> omega
  simp only [Tx.serializeInOut, length_append] at hinOut
  have hinputs := length_le_flatMap (f := TxIn.serialize)
    (fun i => by simp only [TxIn.serialize, length_append, length_leBytes]; omega) tx.inputs
  have houtputs := length_le_flatMap (f := TxOut.serialize)
    (fun o => by simp only [TxOut.serialize, length_append, length_leBytes]; omega) tx.outputs
  refine ⟨by omega, fun i hi => ?_, by omega, fun o ho => ?_, fun ws hws stack hstack => ?_⟩
  · have hmem := length_le_flatMap_of_mem (f := TxIn.serialize) hi
    have := i.length_scriptSig_le
    omega
  · have hmem := length_le_flatMap_of_mem (f := TxOut.serialize) ho
    have := o.length_scriptPubkey_le
    omega
  · rw [Option.mem_def] at hws
    simp only [Tx.serialize, hws, length_append] at h
    have hmem := length_le_flatMap_of_mem (f := serializeWitness) hstack
    obtain ⟨hlen, hdata⟩ := length_le_serializeWitness stack
    refine ⟨by omega, fun data hmem' => ?_⟩
    have := hdata data hmem'
    omega

end LedgerBabylon
