import LedgerBabylon.Common.Buffer

/-!
# Byte streams of the clients

The clients read requests and results from the front of a byte string. Their variable-length integers
are those of the device.
-/

namespace LedgerBabylon

open Endian List

def readExact (n : Nat) (s : Bytes) : Option (Bytes × Bytes) :=
  if s.length < n then none else some (s.take n, s.drop n)

/-- `read_varint` of the Python and the JavaScript client: the encoding need not be the shortest. -/
def readVarint : Bytes → Option (Nat × Bytes)
  | [] => none
  | b :: s =>
    let number n := (readExact n s).map fun r => (leNat r.1, r.2)
    if b = 0xFD then number 2
    else if b = 0xFE then number 4
    else if b = 0xFF then number 8
    else some (b.toNat, s)

theorem readExact_append {n : Nat} {a : Bytes} (h : a.length = n) (rest : Bytes) :
    readExact n (a ++ rest) = some (a, rest) := by
  rw [readExact, if_neg (by rw [length_append]; omega), take_left' h, drop_left' h]

theorem readVarint_varintWrite {value : Nat} (h : value < 2 ^ 64) (rest : Bytes) :
    readVarint (varintWrite value ++ rest) = some (value, rest) := by
  have hle (n : Nat) (hn : value < 256 ^ n) : leNat (leBytes n value) = value := by
    rw [leNat_leBytes, Nat.mod_eq_of_lt hn]
  unfold varintWrite varintSize
  split_ifs with h1 h2 h3
  · -- one byte, which is none of the three markers
    have hbyte : (UInt8.ofNat value).toNat = value := by
      rw [UInt8.toNat_ofNat']
      omega
    have hne (m : UInt8) (hm : 0xFC < m.toNat) : UInt8.ofNat value ≠ m := by
      intro heq
      rw [← heq, hbyte] at hm
      omega
    simp only [cons_append, nil_append, readVarint]
    rw [if_neg (hne 0xFD (by decide)), if_neg (hne 0xFE (by decide)), if_neg (hne 0xFF (by decide)), hbyte]
  · simp only [cons_append, readVarint, if_true]
    rw [readExact_append (length_leBytes 2 value), Option.map_some, hle 2 (by omega)]
  · simp only [cons_append, readVarint, show (0xFE : UInt8) ≠ 0xFD by decide, if_false, if_true]
    rw [readExact_append (length_leBytes 4 value), Option.map_some, hle 4 (by omega)]
  · simp only [cons_append, readVarint, show (0xFF : UInt8) ≠ 0xFD by decide,
      show (0xFF : UInt8) ≠ 0xFE by decide, if_false, if_true]
    rw [readExact_append (length_leBytes 8 value), Option.map_some, hle 8 (by omega)]

theorem readExact_eq_some {n : Nat} {s a rest : Bytes} (h : readExact n s = some (a, rest)) :
    s = a ++ rest ∧ a.length = n := by
  unfold readExact at h
  split_ifs at h with hlt
  cases h
  exact ⟨(take_append_drop n s).symm, by rw [length_take]; omega⟩

/-- `VarInt` of the crate that the Rust client uses, whose code is not part of it: the shortest form is
written and read back, and no other one is accepted. -/
structure VarInt where
  encode : Nat → Bytes
  decode : Bytes → Option (Nat × Bytes)
  encode_eq : encode = varintWrite
  decode_varintWrite {value : Nat} (h : value < 2 ^ 64) (rest : Bytes) :
    decode (varintWrite value ++ rest) = some (value, rest)
  eq_of_decode {s rest : Bytes} {value : Nat} (h : decode s = some (value, rest)) :
    s = varintWrite value ++ rest ∧ value < 2 ^ 64

def readMinimalVarint (s : Bytes) : Option (Nat × Bytes) := do
  let (value, rest) ← readVarint s
  if varintSize value = s.length - rest.length then return (value, rest) else none

theorem readMinimalVarint_varintWrite {value : Nat} (h : value < 2 ^ 64) (rest : Bytes) :
    readMinimalVarint (varintWrite value ++ rest) = some (value, rest) := by
  rw [readMinimalVarint, readVarint_varintWrite h]
  simp [length_varintWrite]

theorem readMinimalVarint_eq_some {s rest : Bytes} {value : Nat}
    (h : readMinimalVarint s = some (value, rest)) : s = varintWrite value ++ rest ∧ value < 2 ^ 64 := by
  obtain ⟨⟨v, r⟩, hread, hpure⟩ := Option.bind_eq_some_iff.mp h
  have hlong (n : Nat) {t : Bytes} (ht : (readExact n t).map (fun p => (leNat p.1, p.2)) = some (v, r)) :
      t.length = n + r.length ∧ v < 256 ^ n ∧ t = leBytes n v ++ r := by
    obtain ⟨⟨a, r'⟩, hexact, heq⟩ := Option.map_eq_some_iff.mp ht
    cases heq
    obtain ⟨rfl, hlen⟩ := readExact_eq_some hexact
    subst hlen
    exact ⟨by rw [length_append], leNat_lt a, by rw [leBytes_leNat]⟩
  cases s with
  | nil => cases hread
  | cons b t =>
    simp only [length_cons] at hpure
    split_ifs at hpure with hsize
    obtain ⟨rfl, rfl⟩ : v = value ∧ r = rest := by simpa using hpure
    simp only [readVarint] at hread
    split_ifs at hread with h1 h2 h3
    · obtain ⟨hlen, hlt, rfl⟩ := hlong 2 hread
      have hthree : varintSize v = 3 := by omega
      exact ⟨by simp [varintWrite, hthree, h1], by omega⟩
    · obtain ⟨hlen, hlt, rfl⟩ := hlong 4 hread
      have hfive : varintSize v = 5 := by omega
      exact ⟨by simp [varintWrite, hfive, h2], by omega⟩
    · obtain ⟨hlen, hlt, rfl⟩ := hlong 8 hread
      have hnine : varintSize v = 9 := by omega
      exact ⟨by simp [varintWrite, hnine, h3], by omega⟩
    · cases hread
      have hone : varintSize b.toNat = 1 := by omega
      have := b.toNat_lt
      exact ⟨by simp [varintWrite, hone], by omega⟩

/-- The properties of `VarInt` are those of reading a number and comparing its size. -/
def VarInt.minimal : VarInt where
  encode := varintWrite
  decode := readMinimalVarint
  encode_eq := rfl
  decode_varintWrite := readMinimalVarint_varintWrite
  eq_of_decode := readMinimalVarint_eq_some

end LedgerBabylon
