import LedgerBabylon.Lib.SplitTree
import LedgerBabylon.Common.Merkle
import Mathlib.Data.Nat.Bitwise

/-!
# Directions in a Merkle tree

For trees of up to `2^31` leaves `ceil_lg` ends, and the bit that `merkle_get_ith_direction` tests says
whether the leaf is behind the split. So the directions are those of the tree that splits at the largest
power of two. For larger trees `ceil_lg` never ends.
-/

namespace LedgerBabylon

variable {n t index : UInt32} {fuel k : Nat}

theorem ceilLgLoop_eq {r : Nat} (ht : t.toNat = 2 ^ r) (hlt : 2 ^ k < n.toNat)
    (hle : n.toNat ≤ 2 ^ (k + 1)) (hk : k + 1 ≤ 31) (hr : r ≤ k + 1) (hfuel : k + 1 < fuel + r) :
    ceilLgLoop n fuel t r = some (k + 1) := by
  induction fuel generalizing t r with
  | zero => omega
  | succ fuel ih =>
    rw [ceilLgLoop]
    by_cases hmore : t < n
    · have hnat : 2 ^ r < n.toNat := by rwa [← ht]
      have hrk : r < k + 1 := (Nat.pow_lt_pow_iff_right (a := 2) (by omega)).mp (by omega)
      have hpow : 2 ^ (r + 1) ≤ 2 ^ 31 := Nat.pow_le_pow_right (by omega) (by omega)
      rw [if_pos hmore]
      apply ih
      · rw [UInt32.toNat_mul, ht, show UInt32.toNat 2 = 2 from rfl, Nat.mul_comm, ← Nat.pow_succ,
          Nat.mod_eq_of_lt (by omega)]
      · omega
      · omega
    · have hnat : n.toNat ≤ 2 ^ r := by
        rw [← ht]
        exact UInt32.le_iff_toNat_le.mp (UInt32.not_lt.mp hmore)
      have hrk : k < r := (Nat.pow_lt_pow_iff_right (a := 2) (by omega)).mp (by omega)
      rw [if_neg hmore, show r = k + 1 by omega]

theorem ceilLg_eq (htwo : 2 ≤ n.toNat) (hle : n.toNat ≤ 2 ^ 31) :
    ceilLg n = some (Nat.log 2 (n.toNat - 1) + 1) := by
  have hlt := splitSize_lt htwo
  have hle' := le_two_mul_splitSize htwo
  rw [splitSize] at hlt hle'
  have hlog : Nat.log 2 (n.toNat - 1) < 31 := (Nat.pow_lt_pow_iff_right (a := 2) (by omega)).mp (by omega)
  exact ceilLgLoop_eq (r := 0) rfl hlt (by rw [Nat.pow_succ]; omega) (by omega) (by omega) (by omega)

theorem toNat_mask (hk : k < 32) : ((1 : UInt32) <<< UInt32.ofNat k).toNat = 2 ^ k := by
  have hpow : 2 ^ k < 2 ^ 32 := Nat.pow_lt_pow_right (by omega) hk
  rw [UInt32.toNat_shiftLeft, UInt32.toNat_ofNat', Nat.mod_eq_of_lt (show k < 2 ^ 32 by omega), Nat.mod_eq_of_lt hk,
    show UInt32.toNat 1 = 1 from rfl, Nat.one_shiftLeft, Nat.mod_eq_of_lt hpow]

theorem and_mask_ne_zero {mask : UInt32} (hmask : mask.toNat = 2 ^ k)
    (hlt : index.toNat < 2 ^ (k + 1)) : (index &&& mask != 0) = decide (mask.toNat ≤ index.toNat) := by
  have hpos := Nat.two_pow_pos k
  have hdiv : index.toNat / 2 ^ k < 2 := by
    rw [Nat.div_lt_iff_lt_mul hpos, Nat.mul_comm, ← Nat.pow_succ]
    exact hlt
  rw [Bool.eq_iff_iff, bne_iff_ne, decide_eq_true_eq, ne_eq, ← UInt32.toNat_inj, UInt32.toNat_and, hmask,
    Nat.and_two_pow, show UInt32.toNat 0 = 0 from rfl, Nat.testBit, Nat.shiftRight_eq_div_pow]
  by_cases hle : 2 ^ k ≤ index.toNat
  · have hone : index.toNat / 2 ^ k = 1 := by
      have := Nat.div_pos hle hpos
      omega
    simp [hone, hle]
  · simp [Nat.div_eq_of_lt (not_le.mp hle), hle]

theorem directionLoop_eq {i nDirections : Nat} {size : UInt32} (hle : size.toNat ≤ 2 ^ 31)
    (hindex : index.toNat < size.toNat) (hi : nDirections ≤ i)
    (hfuel : (HashTree.directions size.toNat index.toNat).length < fuel) :
    directionLoop i fuel size index nDirections =
      some ((HashTree.directions size.toNat index.toNat)[i - nDirections]?) := by
  induction fuel generalizing size index nDirections with
  | zero => omega
  | succ fuel ih =>
    rw [directionLoop]
    by_cases hone : size > 1
    · have htwo : 2 ≤ size.toNat := UInt32.lt_iff_toNat_lt.mp hone
      have hlt := splitSize_lt htwo
      have hle' := le_two_mul_splitSize htwo
      have hlog : Nat.log 2 (size.toNat - 1) < 31 := by
        rw [splitSize] at hlt
        exact (Nat.pow_lt_pow_iff_right (a := 2) (by omega)).mp (by omega)
      obtain ⟨mask, hmaskEq⟩ :
          ∃ mask, mask = (1 : UInt32) <<< UInt32.ofNat (Nat.log 2 (size.toNat - 1)) := ⟨_, rfl⟩
      have hmask : mask.toNat = splitSize size.toNat := by
        rw [hmaskEq, toNat_mask (by omega), splitSize]
      have hbit : (index &&& mask != 0) = decide (splitSize size.toNat ≤ index.toNat) := by
        rw [← hmask]
        apply and_mask_ne_zero (k := Nat.log 2 (size.toNat - 1)) (by rw [hmask, splitSize])
        rw [Nat.pow_succ]
        rw [splitSize] at hle'
        omega
      rw [if_pos hone, ceilLg_eq htwo hle]
      simp only [Nat.add_sub_cancel, ← hmaskEq, hbit]
      rw [HashTree.directions, if_pos htwo] at hfuel ⊢
      by_cases hright : splitSize size.toNat ≤ index.toNat
      · have hsize : (size - mask).toNat = size.toNat - splitSize size.toNat := by
          rw [UInt32.toNat_sub_of_le _ _ (UInt32.le_iff_toNat_le.mpr (by omega)), hmask]
        have hrest : (index - mask).toNat = index.toNat - splitSize size.toNat := by
          rw [UInt32.toNat_sub_of_le _ _ (UInt32.le_iff_toNat_le.mpr (by omega)), hmask]
        rw [if_neg (not_lt.mpr hright)] at hfuel ⊢
        simp only [hright, decide_true, if_true]
        by_cases hhere : nDirections = i
        · rw [if_pos hhere, hhere, Nat.sub_self]
          rfl
        · rw [List.length_cons] at hfuel
          rw [if_neg hhere, ih (by omega) (by omega) (by omega) (by rw [hsize, hrest]; omega), hsize,
            hrest, show i - nDirections = i - (nDirections + 1) + 1 by omega, List.getElem?_cons_succ]
      · rw [if_pos (not_le.mp hright)] at hfuel ⊢
        simp only [hright, decide_false, Bool.false_eq_true, if_false]
        by_cases hhere : nDirections = i
        · rw [if_pos hhere, hhere, Nat.sub_self]
          rfl
        · rw [List.length_cons] at hfuel
          rw [if_neg hhere, ih (by omega) (by omega) (by omega) (by rw [hmask]; omega), hmask,
            show i - nDirections = i - (nDirections + 1) + 1 by omega, List.getElem?_cons_succ]
    · have hsmall : ¬2 ≤ size.toNat := fun h => hone (UInt32.lt_iff_toNat_lt.mpr h)
      rw [if_neg hone, HashTree.directions, if_neg hsmall]
      rfl

theorem merkleGetIthDirection_eq {size : UInt32} (hle : size.toNat ≤ 2 ^ 31)
    (hindex : index.toNat < size.toNat) (i : Nat) :
    merkleGetIthDirection size index i = some ((HashTree.directions size.toNat index.toNat)[i]?) := by
  rw [merkleGetIthDirection]
  by_cases hone : size ≤ 1
  · have hsmall : ¬2 ≤ size.toNat := by
      have := UInt32.le_iff_toNat_le.mp hone
      have : UInt32.toNat 1 = 1 := rfl
      omega
    rw [if_pos (Or.inl hone), HashTree.directions, if_neg hsmall]
    rfl
  · have hlt : ¬index ≥ size := UInt32.not_le.mpr (UInt32.lt_iff_toNat_lt.mpr hindex)
    have hlen := HashTree.length_directions_le hle index.toNat
    rw [if_neg (not_or.mpr ⟨hone, hlt⟩), directionLoop_eq hle hindex (Nat.zero_le i) (by omega), Nat.sub_zero]

/-- Above `2^31` the accumulator doubles to zero without reaching `n`, and zero stays below `n`. -/
theorem ceilLgLoop_endless (hn : 2 ^ 31 < n.toNat) (ht : t = 0 ∨ ∃ k ≤ 31, t.toNat = 2 ^ k)
    (fuel r : Nat) : ceilLgLoop n fuel t r = none := by
  induction fuel generalizing t r with
  | zero => rfl
  | succ fuel ih =>
    have hmore : t < n := by
      rw [UInt32.lt_iff_toNat_lt]
      rcases ht with rfl | ⟨k, hk, ht⟩
      · exact Nat.zero_lt_of_lt hn
      · have := Nat.pow_le_pow_right (n := 2) (by omega) hk
        omega
    rw [ceilLgLoop, if_pos hmore]
    apply ih
    rcases ht with rfl | ⟨k, hk, ht⟩
    · exact .inl rfl
    · have hdouble : (2 * t).toNat = 2 ^ (k + 1) % 2 ^ 32 := by
        rw [UInt32.toNat_mul, ht, show UInt32.toNat 2 = 2 from rfl, Nat.mul_comm, ← Nat.pow_succ]
      rcases Nat.lt_or_ge k 31 with hlt | hge
      · refine .inr ⟨k + 1, hlt, ?_⟩
        rw [hdouble, Nat.mod_eq_of_lt (Nat.pow_lt_pow_right (by omega) (by omega))]
      · obtain rfl : k = 31 := by omega
        exact .inl (UInt32.toNat_inj.mp hdouble)

theorem merkleGetIthDirection_endless {size : UInt32} (hsize : 2 ^ 31 < size.toNat)
    (hindex : index < size) (i : Nat) : merkleGetIthDirection size index i = none := by
  have hone : size > 1 := by
    rw [gt_iff_lt, UInt32.lt_iff_toNat_lt, show UInt32.toNat 1 = 1 from rfl]
    omega
  have hlg : ceilLg size = none := ceilLgLoop_endless hsize (.inr ⟨0, by omega, rfl⟩) 33 0
  rw [merkleGetIthDirection, if_neg (not_or.mpr ⟨UInt32.not_le.mpr hone, UInt32.not_le.mpr hindex⟩),
    directionLoop, if_pos hone, hlg]

/-- `merkle_get_ith_direction` returns for every `i`: for a leaf the directions from the root to it, and
-1 from there on. -/
structure DirectionsRight (size index : UInt32) : Prop where
  returns : ∀ i, merkleGetIthDirection size index i ≠ none
  path : 2 ≤ size → index < size → ∀ i,
    merkleGetIthDirection size index i = some (HashTree.directions size.toNat index.toNat)[i]?

/-- **Directions.** They are right for all trees of at most `2^31` leaves, and a call for a leaf of a larger
tree does not return. -/
theorem directionsRight_iff (size index : UInt32) :
    DirectionsRight size index ↔ size.toNat ≤ 2 ^ 31 ∨ size ≤ index := by
  constructor
  · intro h
    by_contra hnot
    obtain ⟨hsize, hindex⟩ := not_or.mp hnot
    exact h.returns 0 (merkleGetIthDirection_endless (not_le.mp hsize) (UInt32.not_le.mp hindex) 0)
  · intro h
    by_cases hindex : index < size
    · have hle : size.toNat ≤ 2 ^ 31 := h.resolve_right (UInt32.not_le.mpr hindex)
      have heq := merkleGetIthDirection_eq hle (UInt32.lt_iff_toNat_lt.mp hindex)
      exact ⟨fun i => by simp [heq i], fun _ _ => heq⟩
    · refine ⟨fun i => ?_, fun _ hlt => absurd hlt hindex⟩
      simp [merkleGetIthDirection, UInt32.not_lt.mp hindex]

/-- The first leaf of a tree of `2^31 + 1` leaves. -/
theorem not_directionsRight_large : ¬DirectionsRight 0x80000001 0 := fun h => h.returns 0 (by decide)

end LedgerBabylon
