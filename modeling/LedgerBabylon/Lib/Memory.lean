import Mathlib.Tactic.Common
import Mathlib.Data.List.Basic

/-!
# Byte memory

A memory gives a byte at every address. Writing a list of bytes changes the addresses it covers and
no others, so what a later read sees is the written list where the two overlap and the old contents
elsewhere.
-/

abbrev Memory := Nat → UInt8

namespace Memory

variable (m : Memory) {off addr n : Nat} {data : List UInt8}

def read (addr n : Nat) : List UInt8 := (List.range' addr n).map m

def write (off : Nat) (data : List UInt8) : Memory := fun i =>
  if i < off then m i else data.getD (i - off) (m i)

def ofList (data : List UInt8) : Memory := fun i => data.getD i 0

@[simp] theorem length_read : (m.read addr n).length = n := by
  simp [read]

@[simp] theorem read_zero : m.read addr 0 = [] := rfl

theorem read_succ : m.read addr (n + 1) = m addr :: m.read (addr + 1) n := by
  simp [read, List.range'_succ]

theorem read_add (k : Nat) : m.read addr (n + k) = m.read addr n ++ m.read (addr + n) k := by
  simp [read, ← List.range'_append_1]

theorem getElem?_read {i : Nat} (hi : i < n) : (m.read addr n)[i]? = some (m (addr + i)) := by
  simp [read, hi]

theorem read_congr {m' : Memory} (h : ∀ i, i < n → m (addr + i) = m' (addr + i)) :
    m.read addr n = m'.read addr n := by
  apply List.map_congr_left
  intro i hi
  obtain ⟨j, hj, rfl⟩ := List.mem_range'.mp hi
  simpa using h j hj

theorem write_apply_lt {i : Nat} (hi : i < off) : m.write off data i = m i := by
  simp [write, hi]

theorem write_apply_ge {i : Nat} (hi : off + data.length ≤ i) : m.write off data i = m i := by
  have hlt : ¬ i < off := by omega
  have hlen : data.length ≤ i - off := by omega
  simp [write, hlt, hlen]

theorem write_covered {d : List UInt8} (h : off + d.length ≤ data.length) :
    (m.write off d).write 0 data = m.write 0 data := by
  funext i
  rcases Nat.lt_or_ge i data.length with hi | hi
  · simp [write, hi]
  · rw [write_apply_ge _ (by omega), write_apply_ge _ (by omega), write_apply_ge _ (by omega)]

theorem write_append {d : List UInt8} :
    (m.write off data).write (off + data.length) d = m.write off (data ++ d) := by
  funext i
  rcases Nat.lt_or_ge i (off + data.length) with hi | hi
  · rw [write_apply_lt _ hi]
    rcases Nat.lt_or_ge i off with hlo | hlo
    · rw [write_apply_lt _ hlo, write_apply_lt _ hlo]
    · have hlt : ¬ i < off := by omega
      have hidx : i - off < data.length := by omega
      simp [write, hlt, List.getElem?_append_left hidx]
  · have hlt : ¬ i < off := by omega
    have hlt' : ¬ i < off + data.length := by omega
    have hidx : data.length ≤ i - off := by omega
    have hsub : i - (off + data.length) = i - off - data.length := by omega
    simp [write, hlt, hlt', List.getElem?_append_right hidx, hsub, hidx]

theorem write_apply_inside {i : Nat} (hlo : off ≤ i) (hhi : i < off + data.length) :
    m.write off data i = data.getD (i - off) 0 := by
  have hlt : ¬ i < off := by omega
  have hidx : i - off < data.length := by omega
  simp [write, hlt, hidx]

theorem read_write_inside (hlo : off ≤ addr) (hhi : addr + n ≤ off + data.length) :
    (m.write off data).read addr n = (data.drop (addr - off)).take n := by
  apply List.ext_getElem?
  intro i
  rcases Nat.lt_or_ge i n with hi | hi
  · rw [getElem?_read _ hi, List.getElem?_take_of_lt hi, List.getElem?_drop]
    have hlt : ¬ addr + i < off := by omega
    have hidx : addr - off + i < data.length := by omega
    have hsub : addr + i - off = addr - off + i := by omega
    simp [write, hlt, hsub, hidx]
  · rw [List.getElem?_eq_none (by simpa using hi), List.getElem?_eq_none (by simp; omega)]

theorem read_write_same (hn : data.length = n) : (m.write off data).read off n = data := by
  rw [read_write_inside _ (Nat.le_refl off) (by omega), Nat.sub_self, List.drop_zero,
    List.take_of_length_le (by omega)]

theorem read_write_outside (h : addr + n ≤ off ∨ off + data.length ≤ addr) :
    (m.write off data).read addr n = m.read addr n := by
  apply read_congr
  intro i hi
  rcases h with h | h
  · exact write_apply_lt _ (by omega)
  · exact write_apply_ge _ (by omega)

end Memory
