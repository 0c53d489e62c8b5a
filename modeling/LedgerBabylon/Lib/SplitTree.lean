import LedgerBabylon.Lib.HashPath
import Mathlib.Algebra.Group.Nat.Defs
import Mathlib.Data.Nat.Log

/-!
# Hash trees that split at powers of two

A split tree of `n` leaves has the largest power of two below `n` on its left. Its shape is fixed by the
number of leaves, so its value and the path from every leaf are fixed by the list of leaves, and the
directions of a path can be computed from the size and the index alone.
-/

inductive HashTree (D : Type) where
  | leaf (value : D)
  | node (left right : HashTree D)

def splitSize (n : Nat) : Nat := 2 ^ Nat.log 2 (n - 1)

theorem splitSize_pos (n : Nat) : 0 < splitSize n := Nat.two_pow_pos _

theorem splitSize_lt {n : Nat} (h : 2 ≤ n) : splitSize n < n := by
  have := Nat.pow_log_le_self 2 (x := n - 1) (by omega)
  unfold splitSize
  omega

theorem le_two_mul_splitSize {n : Nat} (h : 2 ≤ n) : n ≤ 2 * splitSize n := by
  have := Nat.lt_pow_succ_log_self (b := 2) (by omega) (n - 1)
  rw [Nat.pow_succ] at this
  unfold splitSize
  omega

theorem splitSize_eq {n k : Nat} (hlt : 2 ^ k < n) (hle : n ≤ 2 ^ (k + 1)) : splitSize n = 2 ^ k := by
  rw [splitSize, Nat.log_eq_of_pow_le_of_lt_pow (m := k) (by omega) (by omega)]

namespace HashTree

open List

variable {D M : Type} (hash : M → D) (node : D → D → M)

def leaves : HashTree D → List D
  | .leaf value => [value]
  | .node left right => left.leaves ++ right.leaves

def size : HashTree D → Nat
  | .leaf _ => 1
  | .node left right => left.size + right.size

def value : HashTree D → D
  | .leaf value => value
  | .node left right => hash (node left.value right.value)

def path : HashTree D → Nat → List (Bool × D)
  | .leaf _, _ => []
  | .node left right, i =>
    if i < left.size then left.path i ++ [(false, right.value hash node)]
    else right.path (i - left.size) ++ [(true, left.value hash node)]

def IsSplit : HashTree D → Prop
  | .leaf _ => True
  | .node left right => left.size = splitSize (left.size + right.size) ∧ left.IsSplit ∧ right.IsSplit

@[simp] theorem length_leaves (t : HashTree D) : t.leaves.length = t.size := by
  induction t with
  | leaf value => rfl
  | node left right ihl ihr => rw [leaves, length_append, ihl, ihr, size]

theorem size_pos (t : HashTree D) : 0 < t.size := by
  induction t with
  | leaf value => exact Nat.one_pos
  | node left right ihl ihr => exact Nat.add_pos_left ihl _

/-- There is one split tree for a list of leaves. -/
theorem IsSplit.unique {t u : HashTree D} (ht : t.IsSplit) (hu : u.IsSplit) (h : t.leaves = u.leaves) :
    t = u := by
  have hsize : t.size = u.size := by rw [← length_leaves, h, length_leaves]
  induction t generalizing u with
  | leaf value =>
    cases u with
    | leaf value' => rw [singleton_inj.mp h]
    | node left' right' =>
      have := left'.size_pos
      have := right'.size_pos
      simp only [size] at hsize
      omega
  | node left right ihl ihr =>
    cases u with
    | leaf value' =>
      have := left.size_pos
      have := right.size_pos
      simp only [size] at hsize
      omega
    | node left' right' =>
      obtain ⟨hsplit, hleft, hright⟩ := ht
      obtain ⟨hsplit', hleft', hright'⟩ := hu
      simp only [size] at hsize
      have hl : left.size = left'.size := by rw [hsplit, hsplit', hsize]
      obtain ⟨hlleaves, hrleaves⟩ := append_inj h (by rw [length_leaves, length_leaves, hl])
      rw [ihl hleft hleft' hlleaves hl, ihr hright hright' hrleaves (by omega)]

theorem climb_path {t : HashTree D} {i : Nat} {leaf : D} (h : t.leaves[i]? = some leaf) :
    HashPath.climb hash node leaf (t.path hash node i) = t.value hash node := by
  induction t generalizing i with
  | leaf value =>
    cases i with
    | zero => exact (Option.some.inj h).symm
    | succ i => cases h
  | node left right ihl ihr =>
    simp only [leaves, path] at h ⊢
    split_ifs with hi
    · rw [getElem?_append_left (by rwa [length_leaves])] at h
      rw [HashPath.climb_append, ihl h]
      rfl
    · rw [getElem?_append_right (by rw [length_leaves]; omega), length_leaves] at h
      rw [HashPath.climb_append, ihr h]
      rfl

/-- The directions from the root to a leaf, from the number of leaves and its index. -/
def directions (n i : Nat) : List Bool :=
  if 2 ≤ n then
    if i < splitSize n then false :: directions (splitSize n) i
    else true :: directions (n - splitSize n) (i - splitSize n)
  else []
termination_by n
decreasing_by
  · exact splitSize_lt ‹_›
  · have := splitSize_pos n
    omega

theorem directions_path {t : HashTree D} (ht : t.IsSplit) (i : Nat) :
    (t.path hash node i).map Prod.fst = (directions t.size i).reverse := by
  induction t generalizing i with
  | leaf value => simp [path, directions, size]
  | node left right ihl ihr =>
    obtain ⟨hsplit, hleft, hright⟩ := ht
    have htwo : 2 ≤ left.size + right.size := by
      have := left.size_pos
      have := right.size_pos
      omega
    have hrest : left.size + right.size - left.size = right.size := by omega
    rw [size, directions, if_pos htwo, ← hsplit, hrest, path]
    split_ifs with hi
    · rw [map_append, ihl hleft, reverse_cons]
      rfl
    · rw [map_append, ihr hright, reverse_cons]
      rfl

theorem length_directions_le {n k : Nat} (h : n ≤ 2 ^ k) (i : Nat) : (directions n i).length ≤ k := by
  induction k generalizing n i with
  | zero =>
    rw [directions, if_neg (by omega)]
    exact Nat.le_refl 0
  | succ k ih =>
    rw [directions]
    by_cases htwo : 2 ≤ n
    · have hle := le_two_mul_splitSize htwo
      have hlt := splitSize_lt htwo
      -- a power of two below `2 ^ (k + 1)` is at most `2 ^ k`
      have hsplit : splitSize n ≤ 2 ^ k := by
        have hlog : Nat.log 2 (n - 1) < k + 1 := Nat.log_lt_of_lt_pow (by omega) (by omega)
        exact Nat.pow_le_pow_right (by omega) (by omega)
      rw [if_pos htwo]
      split_ifs
      · exact Nat.succ_le_succ (ih hsplit i)
      · exact Nat.succ_le_succ (ih (by omega) _)
    · rw [if_neg htwo]
      exact Nat.zero_le _

end HashTree
