import LedgerBabylon.Lib.Endian
import LedgerBabylon.Lib.Memory

/-!
# Variable-length integers and read buffers

A `buffer_t` is a window of memory with a read position that never passes its end; the structure
carries that bound, so every operation below returns a buffer that satisfies it.
-/

namespace LedgerBabylon

open Endian List

def varintSize (value : Nat) : Nat :=
  if value ≤ 0xFC then 1
  else if value ≤ 0xFFFF then 3
  else if value ≤ 0xFFFFFFFF then 5
  else 9

/-- Value and length of the variable-length integer at `off`, if it fits in `inLen` bytes. The
encoding need not be the shortest one. -/
def varintRead (m : Memory) (off inLen : Nat) : Option (Nat × Nat) :=
  if inLen < 1 then none
  else
    let lead := m off
    if lead = 0xFD then
      if inLen < 3 then none else some (leNat (m.read (off + 1) 2), 3)
    else if lead = 0xFE then
      if inLen < 5 then none else some (leNat (m.read (off + 1) 4), 5)
    else if lead = 0xFF then
      if inLen < 9 then none else some (leNat (m.read (off + 1) 8), 9)
    else some (lead.toNat, 1)

def varintWrite (value : Nat) : Bytes :=
  match varintSize value with
  | 1 => [UInt8.ofNat value]
  | 3 => 0xFD :: leBytes 2 value
  | 5 => 0xFE :: leBytes 4 value
  | _ => 0xFF :: leBytes 8 value

theorem length_varintWrite (value : Nat) : (varintWrite value).length = varintSize value := by
  unfold varintWrite varintSize
  split_ifs <;> simp

theorem varintRead_congr {m m' : Memory} {off inLen : Nat}
    (h : ∀ i, i < inLen → m (off + i) = m' (off + i)) : varintRead m off inLen = varintRead m' off inLen := by
  have hread {n : Nat} (hn : ¬inLen < n + 1) : m.read (off + 1) n = m'.read (off + 1) n := by
    apply Memory.read_congr
    intro i hi
    rw [Nat.add_assoc]
    exact h (1 + i) (by omega)
  unfold varintRead
  by_cases hnone : inLen < 1
  · rw [if_pos hnone, if_pos hnone]
  · have hlead : m off = m' off := h 0 (by omega)
    rw [if_neg hnone, if_neg hnone, hlead]
    dsimp only
    split_ifs with h1 h2 h3 h4 h5 h6
    · rfl
    · rw [hread h2]
    · rfl
    · rw [hread h4]
    · rfl
    · rw [hread h6]
    · rfl

structure Buffer where
  ptr : Nat
  size : Nat
  offset : Nat
  offset_le : offset ≤ size

namespace Buffer

def create (ptr size : Nat) : Buffer := ⟨ptr, size, 0, Nat.zero_le _⟩

def canRead (b : Buffer) (n : Nat) : Bool := n ≤ b.size - b.offset

def cur (b : Buffer) : Nat := b.ptr + b.offset

def seekCur (b : Buffer) (n : Nat) : Option Buffer :=
  if h : b.offset + n ≤ b.size then some ⟨b.ptr, b.size, b.offset + n, h⟩ else none

def take {α : Type} (b : Buffer) (n : Nat) (f : Nat → α) : Option (α × Buffer) :=
  if b.canRead n then (b.seekCur n).map fun b' => (f b.cur, b') else none

def readU8 (m : Memory) (b : Buffer) : Option (UInt8 × Buffer) := b.take 1 fun a => m a

def readBytes (n : Nat) (m : Memory) (b : Buffer) : Option (Bytes × Buffer) := b.take n fun a => m.read a n

def readVarint (m : Memory) (b : Buffer) : Option (Nat × Buffer) :=
  match varintRead m b.cur (b.size - b.offset) with
  | none => none
  | some (value, len) => (b.seekCur len).map fun b' => (value, b')

theorem canRead_iff {b : Buffer} {n : Nat} : b.canRead n ↔ b.offset + n ≤ b.size := by
  have := b.offset_le
  simp only [canRead, decide_eq_true_eq]
  omega

theorem seekCur_eq_some {b b' : Buffer} {n : Nat} (h : b.seekCur n = some b') :
    b'.ptr = b.ptr ∧ b'.size = b.size ∧ b'.offset = b.offset + n := by
  simp only [seekCur] at h
  split_ifs at h with hle
  cases h
  exact ⟨rfl, rfl, rfl⟩

theorem take_eq_some {α : Type} {b b' : Buffer} {n : Nat} {f : Nat → α} {a : α}
    (h : b.take n f = some (a, b')) :
    a = f b.cur ∧ b'.ptr = b.ptr ∧ b'.size = b.size ∧ b'.offset = b.offset + n := by
  simp only [take] at h
  split_ifs at h with hcan
  obtain ⟨b1, hseek, heq⟩ := Option.map_eq_some_iff.mp h
  cases heq
  exact ⟨rfl, seekCur_eq_some hseek⟩

structure Unread (b : Buffer) (m : Memory) (rest : Bytes) : Prop where
  length : b.offset + rest.length = b.size
  read : m.read b.cur rest.length = rest

namespace Unread

variable {b : Buffer} {m : Memory} {data rest : Bytes}

theorem canRead_iff (h : b.Unread m rest) (n : Nat) : b.canRead n ↔ n ≤ rest.length := by
  have := h.length
  rw [Buffer.canRead_iff]
  omega

theorem read_left (h : b.Unread m (data ++ rest)) : m.read b.cur data.length = data := by
  have hread := h.read
  rw [length_append, Memory.read_add] at hread
  exact (append_inj hread (by simp)).1

theorem seekCur (h : b.Unread m (data ++ rest)) :
    ∃ b', b.seekCur data.length = some b' ∧ b'.Unread m rest := by
  have hlen := h.length
  have hread := h.read
  rw [length_append] at hlen
  rw [length_append, Memory.read_add] at hread
  refine ⟨_, dif_pos (by omega), ?_, ?_⟩
  · show b.offset + data.length + rest.length = b.size
    omega
  · show m.read (b.ptr + (b.offset + data.length)) rest.length = rest
    rw [← Nat.add_assoc]
    exact (append_inj hread (by simp)).2

theorem take (h : b.Unread m (data ++ rest)) {α : Type} (f : Nat → α) :
    ∃ b', b.take data.length f = some (f b.cur, b') ∧ b'.Unread m rest := by
  obtain ⟨b', hseek, hrest⟩ := h.seekCur
  have hcan : b.canRead data.length := by
    rw [h.canRead_iff, length_append]
    omega
  refine ⟨b', ?_, hrest⟩
  rw [Buffer.take, if_pos hcan, hseek]
  rfl

theorem readU8 {byte : UInt8} (h : b.Unread m (byte :: rest)) :
    ∃ b', b.readU8 m = some (byte, b') ∧ b'.Unread m rest := by
  have h' : b.Unread m ([byte] ++ rest) := h
  have hbyte : m b.cur = byte := by
    have hread := h'.read_left
    rw [length_singleton, Memory.read_succ] at hread
    exact (cons.inj hread).1
  obtain ⟨b', htake, hrest⟩ := h'.take m
  rw [hbyte] at htake
  exact ⟨b', htake, hrest⟩

theorem readBytes (h : b.Unread m (data ++ rest)) :
    ∃ b', b.readBytes data.length m = some (data, b') ∧ b'.Unread m rest := by
  obtain ⟨b', htake, hrest⟩ := h.take (m.read · data.length)
  rw [h.read_left] at htake
  exact ⟨b', htake, hrest⟩

end Unread

theorem unread_ofList (data : Bytes) : (create 0 data.length).Unread (Memory.ofList data) data := by
  refine ⟨Nat.zero_add _, ?_⟩
  apply ext_getElem?
  intro i
  show ((Memory.ofList data).read 0 data.length)[i]? = data[i]?
  rcases Nat.lt_or_ge i data.length with hi | hi
  · rw [Memory.getElem?_read _ hi, Nat.zero_add, Memory.ofList, getD_eq_getElem?_getD,
      getElem?_eq_getElem hi, Option.getD_some]
  · rw [getElem?_eq_none (by simpa using hi), getElem?_eq_none hi]

theorem Unread.readVarint {b : Buffer} {m : Memory} {value : Nat} {rest : Bytes}
    (hvalue : value < 2 ^ 64) (h : b.Unread m (varintWrite value ++ rest)) :
    ∃ b', b.readVarint m = some (value, b') ∧ b'.Unread m rest := by
  obtain ⟨b', hseek, hrest⟩ := h.seekCur
  have hlen := h.length
  rw [length_append] at hlen
  have hleft := h.read_left
  refine ⟨b', ?_, hrest⟩
  have hlong (n : Nat) (marker : UInt8) (hn : value < 256 ^ n)
      (hread : m.read b.cur (marker :: leBytes n value).length = marker :: leBytes n value) :
      m b.cur = marker ∧ leNat (m.read (b.cur + 1) n) = value := by
    rw [length_cons, length_leBytes, Memory.read_succ] at hread
    obtain ⟨hmarker, htail⟩ := cons.inj hread
    rw [htail, leNat_leBytes, Nat.mod_eq_of_lt hn]
    exact ⟨hmarker, rfl⟩
  suffices hvarint : varintRead m b.cur (b.size - b.offset) = some (value, (varintWrite value).length) by
    rw [Buffer.readVarint, hvarint]
    simp only [hseek, Option.map_some]
  unfold varintWrite varintSize at hleft hlen ⊢
  split_ifs at hleft hlen ⊢ with h1 h2 h3
  · have hbyte : (UInt8.ofNat value).toNat = value := by
      rw [UInt8.toNat_ofNat']
      omega
    have hne (marker : UInt8) (hm : 0xFC < marker.toNat) : UInt8.ofNat value ≠ marker := by
      intro heq
      rw [← heq, hbyte] at hm
      omega
    simp only [length_singleton, Memory.read_succ, Memory.read_zero, cons.injEq, and_true] at hleft
    simp only [length_singleton] at hlen
    simp only [varintRead, hleft, length_singleton]
    rw [if_neg (by omega), if_neg (hne 0xFD (by decide)), if_neg (hne 0xFE (by decide)),
      if_neg (hne 0xFF (by decide)), hbyte]
  · obtain ⟨hmarker, hnumber⟩ := hlong 2 0xFD (by omega) hleft
    simp only [length_cons, length_leBytes] at hlen ⊢
    simp only [varintRead, hmarker, hnumber, if_true]
    rw [if_neg (by omega), if_neg (by omega)]
  · obtain ⟨hmarker, hnumber⟩ := hlong 4 0xFE (by omega) hleft
    simp only [length_cons, length_leBytes] at hlen ⊢
    simp only [varintRead, hmarker, hnumber, show (0xFE : UInt8) ≠ 0xFD by decide, if_false, if_true]
    rw [if_neg (by omega), if_neg (by omega)]
  · obtain ⟨hmarker, hnumber⟩ := hlong 8 0xFF (by omega) hleft
    simp only [length_cons, length_leBytes] at hlen ⊢
    simp only [varintRead, hmarker, hnumber, show (0xFF : UInt8) ≠ 0xFD by decide,
      show (0xFF : UInt8) ≠ 0xFE by decide, if_false, if_true]
    rw [if_neg (by omega), if_neg (by omega)]

end Buffer

end LedgerBabylon
