import LedgerBabylon.Musig.Musig
import LedgerBabylon.Lib.XOnly
import Mathlib.NumberTheory.LegendreSymbol.Basic

/-!
# The curve as a group

If the operations of the SDK are those of a group whose points fulfil the equation of the curve, then
so are the operations built on them, with the point at infinity for zero, and a compressed point is
decoded to itself.
-/

namespace LedgerBabylon

open Endian

theorem powmLoop_eq (m : Nat) (bits a e acc : Nat) (he : e < 2 ^ bits) (hacc : acc % m = acc) :
    powmLoop m bits a e acc = acc * a ^ e % m := by
  induction bits generalizing a e acc with
  | zero =>
    have he : e = 0 := by omega
    rw [he, powmLoop, pow_zero, mul_one, hacc]
  | succ bits ih =>
    have hsquare : (a * a % m) ^ (e / 2) ≡ a ^ (2 * (e / 2)) [MOD m] := by
      rw [pow_mul, pow_two]
      exact (Nat.mod_modEq _ _).pow _
    have hsplit : 2 * (e / 2) + e % 2 = e := Nat.div_add_mod e 2
    rw [powmLoop, ih _ _ _ (by omega) (by split_ifs <;> simp [hacc])]
    rcases Nat.mod_two_eq_zero_or_one e with h | h
    · rw [h, add_zero] at hsplit
      rw [if_neg (by omega)]
      rw [hsplit] at hsquare
      exact hsquare.mul_left acc
    · rw [if_pos h]
      rw [h] at hsplit
      calc acc * a % m * (a * a % m) ^ (e / 2)
          ≡ acc * a * a ^ (2 * (e / 2)) [MOD m] := (Nat.mod_modEq _ _).mul hsquare
        _ = acc * a ^ e := by rw [mul_assoc, ← pow_succ', hsplit]

theorem powm_eq (a e m : Nat) : powm a e m = a ^ e % m := by
  rw [powm, powmLoop_eq _ _ _ _ _ Nat.lt_log2_self (Nat.mod_mod ..), Nat.mod_mul_mod, one_mul, ← Nat.pow_mod]

/-- For a prime `p` of the form `4 * k + 3`, the power `(p + 1) / 4` of a square is a root of it. -/
theorem sqrt_mod {p y : Nat} (hp : p.Prime) (hmod : p % 4 = 3) (hy : y < p) (hpos : 0 < y) :
    (y ^ 2 % p) ^ ((p + 1) / 4) % p = y ∨ (y ^ 2 % p) ^ ((p + 1) / 4) % p = p - y := by
  have : Fact p.Prime := ⟨hp⟩
  have hne : (y : ZMod p) ≠ 0 := by
    intro hzero
    exact absurd (Nat.le_of_dvd hpos ((ZMod.natCast_eq_zero_iff y p).mp hzero)) (by omega)
  have hpow : (((y ^ 2 % p) ^ ((p + 1) / 4) : Nat) : ZMod p) = (y : ZMod p) ^ (p / 2) * y := by
    rw [Nat.cast_pow, ZMod.natCast_mod, Nat.cast_pow, ← pow_mul, ← pow_succ]
    congr 1
    omega
  rcases ZMod.pow_div_two_eq_neg_one_or_one p hne with h | h
  · left
    rw [h, one_mul] at hpow
    rw [(ZMod.natCast_eq_natCast_iff' _ _ p).mp hpow, Nat.mod_eq_of_lt hy]
  · right
    have hneg : (((p - y : Nat)) : ZMod p) = -y := by
      rw [Nat.cast_sub hy.le, ZMod.natCast_self, zero_sub]
    rw [h, neg_one_mul, ← hneg] at hpow
    rw [(ZMod.natCast_eq_natCast_iff' _ _ p).mp hpow, Nat.mod_eq_of_lt (by omega)]

/-- The operations of the SDK are those of a group. Points other than zero have coordinates, which
fulfil the equation, and x determines a point up to its sign. -/
structure CurveLaws (curve : Curve) (E : Type) [AddCommGroup E] where
  x : E → Nat
  y : E → Nat
  G : E
  prime_p : curve.p.Prime
  p_mod_four : curve.p % 4 = 3
  p_lt : curve.p < 2 ^ 256
  prime_n : curve.n.Prime
  n_lt : curve.n < 2 ^ 256
  G_ne_zero : G ≠ 0
  generatorX : curve.generatorX = x G
  generatorY : curve.generatorY = y G
  x_lt : ∀ P, P ≠ 0 → x P < curve.p
  equation : ∀ P, P ≠ 0 → y P ^ 2 % curve.p = (x P ^ 3 + 7) % curve.p
  y_pos : ∀ P, P ≠ 0 → 0 < y P
  x_neg : ∀ P, x (-P) = x P
  y_neg : ∀ P, P ≠ 0 → y (-P) + y P = curve.p
  eq_or_eq_neg : ∀ P Q, P ≠ 0 → Q ≠ 0 → x P = x Q → P = Q ∨ P = -Q
  add : ∀ P Q, P ≠ 0 → Q ≠ 0 → P + Q ≠ 0 →
    curve.addPoint ⟨4, x P, y P⟩ ⟨4, x Q, y Q⟩ = .ok (x (P + Q)) (y (P + Q))
  mul : ∀ P k, P ≠ 0 → k < 2 ^ 256 → k • P ≠ 0 →
    curve.scalarMult ⟨4, x P, y P⟩ k = .ok (x (k • P)) (y (k • P))
  mul_zero : ∀ P k, P ≠ 0 → k < 2 ^ 256 → k • P = 0 → curve.scalarMult ⟨4, x P, y P⟩ k = .infinitePoint

@[simp] theorem PointT.isInfinite_infinity : PointT.infinity.isInfinite := rfl

namespace CurveLaws

section

variable {curve : Curve} {E : Type} [AddCommGroup E] (laws : CurveLaws curve E)

theorem y_lt {P : E} (hP : P ≠ 0) : laws.y P < curve.p := by
  have hsum := laws.y_neg P hP
  have hpos := laws.y_pos (-P) (neg_ne_zero.mpr hP)
  omega

theorem p_sub_y {P : E} (hP : P ≠ 0) : curve.p - laws.y P = laws.y (-P) := by
  have hsum := laws.y_neg P hP
  omega

theorem y_neg_mod_two {P : E} (hP : P ≠ 0) : laws.y (-P) % 2 = 1 - laws.y P % 2 := by
  have hsum := laws.y_neg P hP
  have hodd := laws.p_mod_four
  omega

def coordinates : XOnly.Coordinates E Nat where
  x := laws.x
  even P := laws.y P % 2 = 0
  x_neg := laws.x_neg
  even_neg P hP := by
    rw [laws.y_neg_mod_two hP]
    rcases Nat.mod_two_eq_zero_or_one (laws.y P) with h | h <;> simp [h]

def encode (P : E) : Bytes := (if laws.y P % 2 = 1 then 3 else 2) :: beBytes 32 (laws.x P)

def evenPoint (P : E) : E := if laws.y P % 2 = 1 then -P else P

theorem evenPoint_ne_zero {P : E} (hP : P ≠ 0) : laws.evenPoint P ≠ 0 := by
  rw [evenPoint]
  split_ifs
  · exact neg_ne_zero.mpr hP
  · exact hP

end

variable {curve : Curve} {E : Type} [AddCommGroup E] [DecidableEq E] (laws : CurveLaws curve E)

def point (P : E) : PointT := if P = 0 then .infinity else ⟨4, laws.x P, laws.y P⟩

theorem point_zero : laws.point 0 = .infinity := if_pos rfl

theorem point_of_ne {P : E} (hP : P ≠ 0) : laws.point P = ⟨4, laws.x P, laws.y P⟩ := if_neg hP

theorem x_point {P : E} (hP : P ≠ 0) : (laws.point P).x = laws.x P := by
  rw [laws.point_of_ne hP]

theorem isInfinite_point (P : E) : (laws.point P).isInfinite = decide (P = 0) := by
  by_cases hP : P = 0
  · simp [hP, point_zero]
  · simp [laws.point_of_ne hP, PointT.isInfinite, hP]

theorem generator : curve.generator = laws.point laws.G := by
  rw [laws.point_of_ne laws.G_ne_zero, Curve.generator, laws.generatorX, laws.generatorY]

theorem compressed_point {P : E} (hP : P ≠ 0) : (laws.point P).compressed = some (laws.encode P) := by
  rw [laws.point_of_ne hP]
  rfl

theorem hasEvenY_point {P : E} (hP : P ≠ 0) : hasEvenY (laws.point P) = .ok (laws.coordinates.even P) := by
  rw [hasEvenY, isInfinite_point, decide_eq_false hP, laws.point_of_ne hP]
  rfl

theorem pointAdd_point (P Q : E) (out : PointT) :
    curve.pointAdd (laws.point P) (laws.point Q) out = (true, laws.point (P + Q)) := by
  by_cases hP : P = 0
  · simp [Curve.pointAdd, hP, point_zero]
  by_cases hQ : Q = 0
  · simp [Curve.pointAdd, isInfinite_point, hP, hQ]
  simp only [Curve.pointAdd, isInfinite_point, hP, hQ, decide_false, Bool.false_eq_true, if_false]
  rw [laws.point_of_ne hP, laws.point_of_ne hQ]
  by_cases hsum : P + Q = 0
  · -- opposite points have the same x coordinate and different y coordinates
    obtain rfl : Q = -P := (neg_eq_of_add_eq_zero_right hsum).symm
    have hy : laws.y P ≠ laws.y (-P) := by
      have hmod := laws.y_neg_mod_two hP
      omega
    rw [if_pos ⟨(laws.x_neg P).symm, hy⟩, hsum, point_zero]
  · have hsame : ¬(laws.x P = laws.x Q ∧ laws.y P ≠ laws.y Q) := by
      rintro ⟨hx, hy⟩
      rcases laws.eq_or_eq_neg P Q hP hQ hx with heq | heq
      · exact hy (by rw [heq])
      · exact hsum (by rw [heq, neg_add_cancel])
    rw [if_neg hsame, laws.add P Q hP hQ hsum, laws.point_of_ne hsum]

theorem pointMul_point (P : E) {k : Nat} (hk : k < 2 ^ 256) :
    curve.pointMul (laws.point P) k = some (laws.point (k • P)) := by
  by_cases hP : P = 0
  · simp [Curve.pointMul, hP, point_zero]
  simp only [Curve.pointMul, isInfinite_point, hP, decide_false, Bool.false_eq_true, if_false]
  rw [laws.point_of_ne hP]
  by_cases hprod : k • P = 0
  · rw [laws.mul_zero P k hP hk hprod, hprod, point_zero]
  · rw [laws.mul P k hP hk hprod, laws.point_of_ne hprod]

theorem tweakedKey_point {Q : E} {g tweak : Nat} (hg : g < 2 ^ 256) (htweak : tweak < 2 ^ 256)
    (hne : g • Q + tweak • laws.G ≠ 0) :
    tweakedKey curve (laws.point Q) g tweak = some (laws.point (g • Q + tweak • laws.G)) := by
  simp [tweakedKey, laws.generator, laws.pointMul_point _ hg, laws.pointMul_point _ htweak,
    laws.pointAdd_point, laws.isInfinite_point, hne]

theorem pointNegate_point (P : E) : curve.pointNegate (laws.point P) = laws.point (-P) := by
  by_cases hP : P = 0
  · simp [Curve.pointNegate, hP, point_zero]
  · simp only [Curve.pointNegate, isInfinite_point, hP, decide_false, Bool.false_eq_true, if_false]
    rw [laws.point_of_ne hP, laws.point_of_ne (neg_ne_zero.mpr hP), laws.x_neg, laws.p_sub_y hP]

theorem point_evenPoint {P : E} (hP : P ≠ 0) : laws.point (laws.evenPoint P)
      = ⟨4, laws.x P, if laws.y P % 2 = 1 then curve.p - laws.y P else laws.y P⟩ := by
  rw [laws.point_of_ne (laws.evenPoint_ne_zero hP), evenPoint]
  split_ifs
  · rw [laws.x_neg, laws.p_sub_y hP]
  · rfl

theorem liftX_x {P : E} (hP : P ≠ 0) (out : PointT) :
    curve.liftX (laws.x P) out = (true, laws.point (laws.evenPoint P)) := by
  have hlt := laws.y_lt hP
  have hmod := laws.p_mod_four
  have hc : (laws.x P ^ 3 % curve.p + 7) % curve.p = laws.y P ^ 2 % curve.p := by
    rw [Nat.mod_add_mod, laws.equation P hP]
  -- whichever root is found, its square is right and the even one of the two is taken
  have hsquare : (curve.p - laws.y P) ^ 2 % curve.p = laws.y P ^ 2 % curve.p := by
    rw [laws.p_sub_y hP, laws.equation P hP, laws.equation (-P) (neg_ne_zero.mpr hP), laws.x_neg]
  simp only [Curve.liftX, powm_eq, hc]
  rw [laws.point_evenPoint hP]
  rcases sqrt_mod laws.prime_p hmod hlt (laws.y_pos P hP) with hroot | hroot
  · rw [hroot, if_neg (not_not.mpr rfl)]
  · rw [hroot, if_neg (not_not.mpr hsquare)]
    congr 2
    split_ifs <;> omega

theorem cpoint_encode {P : E} (hP : P ≠ 0) (out : PointT) :
    curve.cpoint (laws.encode P) out = some (laws.point P) := by
  have hx : beNat (beBytes 32 (laws.x P)) = laws.x P := by
    rw [beNat, beBytes, List.reverse_reverse, leNat_leBytes]
    exact Nat.mod_eq_of_lt ((laws.x_lt P hP).trans laws.p_lt)
  simp only [Curve.cpoint, encode, List.drop_succ_cons, List.drop_zero, List.headD_cons, hx,
    laws.liftX_x hP, isInfinite_point, laws.evenPoint_ne_zero hP, decide_false, Bool.false_eq_true,
    if_false]
  by_cases hodd : laws.y P % 2 = 1
  · simp [hodd, evenPoint, pointNegate_point]
  · simp [hodd, evenPoint]

theorem cpointExt_writeNonce (P : E) (old : Bytes) (out : PointT) :
    curve.cpointExt (writeNonce (laws.point P) old) out = some (laws.point P) := by
  by_cases hP : P = 0
  · simp [Curve.cpointExt, writeNonce, hP, point_zero]
  · have hhead : ¬(laws.encode P).all (· = 0) := by
      by_cases hodd : laws.y P % 2 = 1 <;> simp [encode, hodd]
    simp only [writeNonce, isInfinite_point, hP, decide_false, Bool.false_eq_true, if_false,
      laws.compressed_point hP, Option.getD_some]
    rw [Curve.cpointExt, if_neg hhead, laws.cpoint_encode hP]

end CurveLaws

end LedgerBabylon
