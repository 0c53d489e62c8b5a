import LedgerBabylon.Lib.HashPath
import LedgerBabylon.Boilerplate.Dispatcher

/-!
# Merkle trees

A tree of `n` leaves splits at the largest power of two below `n`. Leaves are hashed with a leading
zero byte and inner nodes with a leading one, and `merkle_get_ith_direction` computes the way from
the root to a leaf from the size and the index alone. SHA-256 is a parameter throughout.
-/

namespace LedgerBabylon

variable {b : Buffer} {m : Memory} {rest : Bytes}

structure Digest where
  bytes : Bytes
  length_bytes : bytes.length = 32
  deriving DecidableEq

variable {d : Digest}

def Digest.ofMemory (m : Memory) (addr : Nat) : Digest := ⟨m.read addr 32, m.length_read⟩

theorem Digest.ofMemory_of_unread (h : b.Unread m (d.bytes ++ rest)) : Digest.ofMemory m b.cur = d := by
  have hbytes := h.read_left
  rw [d.length_bytes] at hbytes
  obtain ⟨bytes, hlen⟩ := d
  simp only [Digest.ofMemory, Digest.mk.injEq]
  exact hbytes

theorem Digest.take_of_unread (h : b.Unread m (d.bytes ++ rest)) :
    ∃ b', b.take 32 (Digest.ofMemory m) = some (d, b') ∧ b'.Unread m rest := by
  obtain ⟨b', htake, hrest⟩ := h.take (Digest.ofMemory m)
  rw [d.length_bytes, Digest.ofMemory_of_unread h] at htake
  exact ⟨b', htake, hrest⟩

def Digest.ofNat (value : Nat) : Digest := ⟨Endian.beBytes 32 value, Endian.length_beBytes 32 value⟩

/-- A hash function known by its values on the strings that a concrete run hashes. -/
def sha256Table (table : List (Bytes × Digest)) (message : Bytes) : Digest :=
  (table.lookup message).getD (Digest.ofNat 0)

theorem mem_of_sha256Table_eq {table : List (Bytes × Digest)} {message : Bytes} {hash : Digest}
    (h : sha256Table table message = hash) (hhash : hash ≠ Digest.ofNat 0) : (message, hash) ∈ table := by
  unfold sha256Table at h
  cases hlookup : table.lookup message with
  | none =>
    rw [hlookup] at h
    exact absurd h.symm hhash
  | some found =>
    rw [hlookup] at h
    obtain rfl : found = hash := h
    obtain ⟨l1, l2, rfl, -⟩ := List.lookup_eq_some_iff.mp hlookup
    simp

/-- `ceil_lg`: `t` doubles until it reaches `n`. Beyond `2^31` it wraps to zero and the loop never ends,
which is `none`. -/
def ceilLgLoop (n : UInt32) : Nat → UInt32 → Nat → Option Nat
  | 0, _, _ => none
  | fuel + 1, t, r => if t < n then ceilLgLoop n fuel (2 * t) (r + 1) else some r

def ceilLg (n : UInt32) : Option Nat := ceilLgLoop n 33 1 0

/-- The loop of `merkle_get_ith_direction`, for which 33 rounds are enough: `none` if the C function
does not return, and `some none` if it returns -1. -/
def directionLoop (i : Nat) : Nat → UInt32 → UInt32 → Nat → Option (Option Bool)
  | 0, _, _, _ => none
  | fuel + 1, size, index, nDirections =>
    if size > 1 then
      match ceilLg size with
      | none => none
      | some depth =>
        let mask : UInt32 := 1 <<< UInt32.ofNat (depth - 1)
        let isRightChild := index &&& mask != 0
        if nDirections = i then some (some isRightChild)
        else if isRightChild then
          directionLoop i fuel (size - mask) (index - mask) (nDirections + 1)
        else directionLoop i fuel mask index (nDirections + 1)
    else some none

def merkleGetIthDirection (size index : UInt32) (i : Nat) : Option (Option Bool) :=
  if size ≤ 1 ∨ index ≥ size then some none else directionLoop i 33 size index 0

theorem merkleGetIthDirection_some {size index : UInt32} {i : Nat} {right : Bool}
    (h : merkleGetIthDirection size index i = some (some right)) : 1 < size ∧ index < size := by
  simp only [merkleGetIthDirection] at h
  split_ifs at h with hout
  · simp at h
  · obtain ⟨hsize, hindex⟩ := not_or.mp hout
    exact ⟨UInt32.not_le.mp hsize, UInt32.not_le.mp hindex⟩

def nodeMessage (left right : Digest) : Bytes := 0x01 :: left.bytes ++ right.bytes

theorem nodeMessage_injective : Function.Injective2 nodeMessage := by
  rintro ⟨l1, hl1⟩ ⟨l2, hl2⟩ ⟨r1, hr1⟩ ⟨r2, hr2⟩ h
  simp only [nodeMessage, List.cons_append, List.cons.injEq, true_and] at h
  obtain ⟨rfl, rfl⟩ := List.append_inj h (by rw [hl1, hl2])
  exact ⟨rfl, rfl⟩

variable (sha256 : Bytes → Digest)

def merkleComputeElementHash (element : Bytes) : Digest := sha256 (0x00 :: element)

def merkleCombineHashes (left right : Digest) : Cmd Digest := do
  modify fun c => { c with hashed := c.hashed ++ [nodeMessage left right] }
  return sha256 (nodeMessage left right)

theorem merkleCombineHashes_ok {left right out : Digest} {c c' : Comm}
    (h : merkleCombineHashes sha256 left right c = .ok out c') :
    out = sha256 (nodeMessage left right)
      ∧ c' = { c with hashed := c.hashed ++ [nodeMessage left right] } := by
  obtain ⟨_, c1, hmod, hpure⟩ := Exec.bind_ok h
  rw [Exec.modify_ok_iff] at hmod
  obtain ⟨rfl, rfl⟩ := Exec.pure_ok hpure
  exact ⟨rfl, hmod.symm⟩

end LedgerBabylon
