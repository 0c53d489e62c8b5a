import Mathlib.Tactic.Common
import Mathlib.Tactic.Ring

/-!
# Fixed-width numbers as bytes

Little-endian and big-endian values of byte strings, and the byte strings of a given width. Both
round trips hold below the width's bound.
-/

abbrev Bytes := List UInt8

namespace Endian

open List

theorem forall_byte {P : UInt8 → Prop} (h : ∀ n : Fin 256, P (UInt8.ofNat n)) (b : UInt8) : P b := by
  have hb := h ⟨b.toNat, b.toNat_lt⟩
  rwa [UInt8.ofNat_toNat] at hb

def leNat : Bytes → Nat
  | [] => 0
  | b :: bs => b.toNat + 256 * leNat bs

def beNat (bs : Bytes) : Nat := leNat bs.reverse

def leBytes : Nat → Nat → Bytes
  | 0, _ => []
  | n + 1, value => UInt8.ofNat value :: leBytes n (value / 256)

def beBytes (n value : Nat) : Bytes := (leBytes n value).reverse

@[simp] theorem length_leBytes (n value : Nat) : (leBytes n value).length = n := by
  induction n generalizing value with
  | zero => rfl
  | succ n ih => simp [leBytes, ih]

@[simp] theorem length_beBytes (n value : Nat) : (beBytes n value).length = n := by
  simp [beBytes]

theorem leNat_lt (bs : Bytes) : leNat bs < 256 ^ bs.length := by
  induction bs with
  | nil => simp [leNat]
  | cons b bs ih =>
    have hb : b.toNat < 256 := b.toNat_lt
    simp only [leNat, length_cons, pow_succ]
    omega

theorem leNat_leBytes (n value : Nat) : leNat (leBytes n value) = value % 256 ^ n := by
  induction n generalizing value with
  | zero => simp [leBytes, leNat, Nat.mod_one]
  | succ n ih =>
    have hbyte : (UInt8.ofNat value).toNat = value % 256 := by simp
    rw [leBytes, leNat, ih, hbyte, pow_succ', Nat.mod_mul]

theorem beNat_beBytes (n value : Nat) : beNat (beBytes n value) = value % 256 ^ n := by
  rw [beNat, beBytes, reverse_reverse, leNat_leBytes]

theorem beNat_append (as bs : Bytes) : beNat (as ++ bs) = beNat as * 256 ^ bs.length + beNat bs := by
  unfold beNat
  rw [reverse_append]
  have happend : ∀ cs ds : Bytes, leNat (cs ++ ds) = leNat cs + 256 ^ cs.length * leNat ds := by
    intro cs ds
    induction cs with
    | nil => simp [leNat]
    | cons c cs ih =>
      simp only [cons_append, leNat, ih, length_cons, pow_succ]
      ring
  rw [happend, length_reverse]
  ring

theorem beNat_replicate_zero_append (n : Nat) (bs : Bytes) : beNat (replicate n 0 ++ bs) = beNat bs := by
  have hzero : beNat (replicate n 0) = 0 := by
    unfold beNat
    rw [reverse_replicate]
    induction n with
    | zero => rfl
    | succ n ih => simp [replicate_succ, leNat, ih]
  rw [beNat_append, hzero, Nat.zero_mul, Nat.zero_add]

theorem leBytes_leNat (bs : Bytes) : leBytes bs.length (leNat bs) = bs := by
  induction bs with
  | nil => rfl
  | cons b bs ih =>
    have hb : b.toNat < 256 := b.toNat_lt
    have hhead : UInt8.ofNat (b.toNat + 256 * leNat bs) = b := by
      apply UInt8.toNat_inj.mp
      simp only [UInt8.toNat_ofNat']
      omega
    have htail : (b.toNat + 256 * leNat bs) / 256 = leNat bs := by omega
    simp only [length_cons, leNat, leBytes, hhead, htail, ih]

theorem beNat_injective {as bs : Bytes} (hlen : as.length = bs.length) (h : beNat as = beNat bs) :
    as = bs := by
  apply reverse_inj.mp
  have hlen' : as.reverse.length = bs.reverse.length := by simpa using hlen
  rw [← leBytes_leNat as.reverse, ← leBytes_leNat bs.reverse, hlen']
  exact congrArg _ h

end Endian
