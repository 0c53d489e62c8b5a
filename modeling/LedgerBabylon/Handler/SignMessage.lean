import LedgerBabylon.Common.Base58
import LedgerBabylon.Lib.Endian
import LedgerBabylon.Lib.Memory

/-!
# Signing messages

The curve gives a signature as two DER integers. The response has them as numbers of 32 bytes: each one
is copied to where it ends in the response, so that one with a zero byte in front reaches one byte too
far, and what it overwrites there is written later.
-/

namespace LedgerBabylon

open Endian Memory List

def copyBackwards (dst src : Nat) (sig : Memory) : Nat → Memory → Memory
  | 0, result => result
  | i + 1, result => copyBackwards dst src sig i (result.write (dst + i) [sig (src + i)])

def cxEccinfoParityOdd : UInt32 := 1

def compactHeader (info : UInt32) : UInt8 := 27 + 4 + (if info &&& cxEccinfoParityOdd ≠ 0 then 1 else 0)

/-- The 65 bytes that `handler_sign_message` sends for the signature, unless one of its integers is
too long. -/
def compactSignature (sig : Memory) (info : UInt32) : Option Bytes :=
  let rLength := (sig 3).toNat
  let sLength := (sig (4 + rLength + 1)).toNat
  if 33 < rLength ∨ 33 < sLength then none
  else
    let result := Memory.ofList (replicate 65 0)
    let result := copyBackwards (1 + 32 + 32 - sLength) (4 + rLength + 2) sig sLength result
    let result := copyBackwards (1 + 32 - rLength) 4 sig rLength result
    let result := result.write 0 [compactHeader info]
    some (result.read 0 65)

/-- The contents of a DER integer: no byte more than needed, with a zero byte in front if the number
would be negative without it. -/
def derInteger (n : Nat) : Bytes :=
  let bytes := (beBytes 32 n).dropWhile (· = 0)
  if 0x80 ≤ bytes.headD 0 then 0 :: bytes else bytes

def derBody (r s : Nat) : Bytes := 0x02 :: UInt8.ofNat (derInteger r).length :: derInteger r
    ++ 0x02 :: UInt8.ofNat (derInteger s).length :: derInteger s

def derSignature (r s : Nat) : Bytes := 0x30 :: UInt8.ofNat (derBody r s).length :: derBody r s

theorem copyBackwards_eq (dst src : Nat) (sig result : Memory) (n : Nat) :
    copyBackwards dst src sig n result = result.write dst (sig.read src n) := by
  induction n generalizing result with
  | zero =>
    funext i
    rcases Nat.lt_or_ge i dst with hi | hi
    · rw [write_apply_lt _ hi, copyBackwards]
    · rw [write_apply_ge _ (by simpa using hi), copyBackwards]
  | succ n ih =>
    rw [copyBackwards, ih, read_add, ← write_append, length_read]
    funext i
    -- the loop writes the last byte first
    by_cases hi : i = dst + n
    · subst hi
      rw [write_apply_ge _ (by simp), write_apply_inside _ le_rfl (by simp),
        write_apply_inside _ le_rfl (by simp)]
      simp [read_succ]
    · have hother (m : Memory) (b : UInt8) : m.write (dst + n) [b] i = m i := by
        rcases Nat.lt_or_gt_of_ne hi with hi | hi
        · exact write_apply_lt _ hi
        · exact write_apply_ge _ (by rw [length_singleton]; omega)
      rw [show sig.read (src + n) 1 = [sig (src + n)] from rfl, hother]
      change (if i < dst then result.write (dst + n) [sig (src + n)] i
        else (sig.read src n).getD (i - dst) (result.write (dst + n) [sig (src + n)] i)) = _
      rw [hother]
      rfl

/-- What the contents of an integer look like at the end of 33 zero bytes. -/
theorem derInteger_spec {n : Nat} (hpos : 1 ≤ n) (hlt : n < 2 ^ 256) :
    1 ≤ (derInteger n).length ∧ (derInteger n).length ≤ 33
      ∧ replicate (33 - (derInteger n).length) 0 ++ derInteger n = 0 :: beBytes 32 n := by
  have hsplit := takeWhile_append_dropWhile (p := (· = (0 : UInt8))) (l := beBytes 32 n)
  rw [takeWhile_eq_replicate] at hsplit
  have hlen := congrArg length hsplit
  rw [length_append, length_replicate, length_beBytes] at hlen
  have hne : (beBytes 32 n).dropWhile (· = 0) ≠ [] := by
    intro hnil
    have hzero : beNat (beBytes 32 n) = 0 := by
      rw [← hsplit, hnil, beNat_replicate_zero_append]
      rfl
    rw [beNat_beBytes] at hzero
    omega
  have hnonempty := length_pos_iff.mpr hne
  rw [derInteger]
  split_ifs
  · rw [length_cons]
    refine ⟨by omega, by omega, ?_⟩
    rw [show 33 - (((beBytes 32 n).dropWhile (· = 0)).length + 1) =
      ((beBytes 32 n).takeWhile (· = 0)).length by omega, append_cons, ← replicate_succ',
      replicate_succ, cons_append, hsplit]
  · refine ⟨hnonempty, by omega, ?_⟩
    rw [show 33 - ((beBytes 32 n).dropWhile (· = 0)).length =
      ((beBytes 32 n).takeWhile (· = 0)).length + 1 by omega, replicate_succ, cons_append,
      hsplit]

structure DerParts (sig : Memory) (r s : Bytes) : Prop where
  rLength : sig 3 = UInt8.ofNat r.length
  rBytes : sig.read 4 r.length = r
  sLength : sig (4 + r.length + 1) = UInt8.ofNat s.length
  sBytes : sig.read (4 + r.length + 2) s.length = s

theorem derParts_of_read {sig : Memory} {r s : Nat}
    (h : sig.read 0 (derSignature r s).length = derSignature r s) :
    DerParts sig (derInteger r) (derInteger s) := by
  have hparts : derSignature r s = [0x30, UInt8.ofNat (derBody r s).length, 0x02,
      UInt8.ofNat (derInteger r).length] ++ (derInteger r ++ ([0x02, UInt8.ofNat (derInteger s).length]
        ++ derInteger s)) := by
    simp [derSignature, derBody]
  rw [hparts] at h
  simp only [length_append, read_add] at h
  obtain ⟨hfirst, h⟩ := append_inj h (by simp)
  obtain ⟨hr, h⟩ := append_inj h (by simp)
  obtain ⟨hmiddle, hs⟩ := append_inj h (by simp)
  simp only [length_cons, length_nil, Nat.zero_add, read_succ, read_zero,
    cons.injEq, and_true] at hfirst hmiddle
  exact ⟨hfirst.2.2.2, by simpa using hr, by simpa using hmiddle.2, by simpa using hs⟩

/-- A number of 33 bytes whose first bytes are left out where zeros are. -/
theorem read_write_end {m : Memory} {base : Nat} {data bytes : Bytes} (hdata : data.length ≤ 33)
    (hzeros : m.read base (33 - data.length) = replicate (33 - data.length) 0)
    (hpad : replicate (33 - data.length) 0 ++ data = 0 :: bytes) :
    (m.write (base + (33 - data.length)) data).read (base + 1) 32 = bytes := by
  have hread : (m.write (base + (33 - data.length)) data).read base (33 - data.length + data.length)
      = 0 :: bytes := by
    rw [read_add, read_write_outside _ (.inl le_rfl), read_write_same _ rfl, hzeros, hpad]
  rw [Nat.sub_add_cancel hdata, read_succ] at hread
  exact (cons.inj hread).2

/-- **The compact signature.** For the DER encoding of two numbers the response has a header byte and the
numbers in 32 bytes each. -/
theorem compactSignature_der {r s : Nat} (hr : 1 ≤ r ∧ r < 2 ^ 256) (hs : 1 ≤ s ∧ s < 2 ^ 256)
    {sig : Memory} (hsig : sig.read 0 (derSignature r s).length = derSignature r s) (info : UInt32) :
    compactSignature sig info = some (compactHeader info :: (beBytes 32 r ++ beBytes 32 s)) := by
  obtain ⟨hrpos, hrle, hrpad⟩ := derInteger_spec hr.1 hr.2
  obtain ⟨-, hsle, hspad⟩ := derInteger_spec hs.1 hs.2
  obtain ⟨hrLength, hrBytes, hsLength, hsBytes⟩ := derParts_of_read hsig
  have htoNat {n : Nat} (hn : n ≤ 33) : (UInt8.ofNat n).toNat = n :=
    (UInt8.toNat_ofNat_of_lt' (by rw [UInt8.size]; omega))
  have hzeros (k addr n : Nat) : (Memory.ofList (replicate k 0)).read addr n = replicate n 0 := by
    simp only [Memory.read, Memory.ofList, eq_replicate_iff, length_map, length_range', mem_map, true_and]
    rintro _ ⟨i, -, rfl⟩
    rcases Nat.lt_or_ge i k with hi | hi <;> simp [hi]
  rw [compactSignature, hrLength, htoNat hrle, hsLength, htoNat hsle, if_neg (by omega)]
  simp only [copyBackwards_eq, hrBytes, hsBytes]
  rw [show 1 + 32 + 32 - (derInteger s).length = 32 + (33 - (derInteger s).length) by omega,
    show 1 + 32 - (derInteger r).length = 0 + (33 - (derInteger r).length) by omega]
  generalize hm : (Memory.ofList (replicate 65 0)).write (32 + (33 - (derInteger s).length))
    (derInteger s) = m
  have hsRead : m.read 33 32 = beBytes 32 s := by
    rw [← hm]
    exact read_write_end hsle (hzeros _ _ _) hspad
  have hrRead := @read_write_end m 0 _ _ hrle
    (by rw [← hm, Memory.read_write_outside _ (.inl (by omega)), hzeros]) hrpad
  have hafter {addr n : Nat} (haddr : 1 ≤ addr) (m : Memory) :
      (m.write 0 [compactHeader info]).read addr n = m.read addr n :=
    Memory.read_write_outside _ (.inr haddr)
  rw [show 65 = 1 + (32 + 32) by rfl, Memory.read_add, Memory.read_add (n := 32),
    Memory.read_write_same _ length_singleton, hafter le_rfl, hrRead, hafter (by omega),
    Memory.read_write_outside _ (.inr (by omega)), hsRead]
  rfl

/-- The first number has one byte, the second one 33. -/
theorem compactSignature_der_lengths : compactSignature (Memory.ofList (derSignature 1 (2 ^ 255))) 1
      = some (32 :: (beBytes 32 1 ++ beBytes 32 (2 ^ 255))) :=
  compactSignature_der ⟨by decide, by decide⟩ ⟨by decide, by decide⟩ (by decide +kernel) 1

end LedgerBabylon
