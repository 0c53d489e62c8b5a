import Mathlib.Data.ZMod.Basic
import Mathlib.Algebra.BigOperators.Group.List.Basic
import Mathlib.Tactic.Module

/-!
# Signatures with x-only keys

A point of a group of order `n` is published by its x coordinate, and then stands for the even one of
`P` and `-P`. A signature verifies if `s • G = R + e • P` for the even points of its nonce and of its
key. Several signers make one together: the shares of their keys and nonces add up, with signs wherever
a point is replaced by the even one, and with tweaks of the key.
-/

namespace XOnly

variable {E X : Type} [AddCommGroup E]

/-- Coordinates of points: an x coordinate and a parity, which depends on the sign only. -/
structure Coordinates (E X : Type) [AddCommGroup E] where
  x : E → X
  even : E → Bool
  x_neg : ∀ P, x (-P) = x P
  even_neg : ∀ P, P ≠ 0 → even (-P) = !even P

variable {n : ℕ} [Module (ZMod n) E] (c : Coordinates E X) (G : E)

def sign (n : ℕ) (P : E) : ZMod n := if c.even P then 1 else -1

theorem sign_smul (P : E) : sign c n P • P = if c.even P then P else -P := by
  by_cases h : c.even P <;> simp [sign, h]

theorem even_sign_smul {P : E} (hP : P ≠ 0) : c.even (sign c n P • P) := by
  rw [sign_smul]
  by_cases h : c.even P
  · simp [h]
  · simp [h, c.even_neg P hP]

theorem x_sign_smul (P : E) : c.x (sign c n P • P) = c.x P := by
  rw [sign_smul]
  split_ifs
  · rfl
  · exact c.x_neg P

theorem sign_smul_ne_zero {P : E} (hP : P ≠ 0) : sign c n P • P ≠ 0 := by
  rw [sign_smul]
  split_ifs
  · exact hP
  · exact neg_ne_zero.mpr hP

/-- Verification: the key and the nonce stand for even points that fulfil the equation. -/
def Verifies (challenge : X → X → ZMod n) (key r : X) (s : ZMod n) : Prop :=
  ∃ P R : E, (P ≠ 0 ∧ c.even P ∧ c.x P = key) ∧ (R ≠ 0 ∧ c.even R ∧ c.x R = r)
    ∧ s • G = R + challenge r key • P

def schnorr (challenge : X → X → ZMod n) (d k : ZMod n) : ZMod n :=
  sign c n (k • G) * k + challenge (c.x (k • G)) (c.x (d • G)) * (sign c n (d • G) * d)

theorem verifies_schnorr (challenge : X → X → ZMod n) {d k : ZMod n} (hd : d • G ≠ 0) (hk : k • G ≠ 0) :
    Verifies c G challenge (c.x (d • G)) (c.x (k • G)) (schnorr c G challenge d k) := by
  refine ⟨sign c n (d • G) • d • G, sign c n (k • G) • k • G,
    ⟨sign_smul_ne_zero c hd, even_sign_smul c hd, x_sign_smul c (d • G)⟩,
    ⟨sign_smul_ne_zero c hk, even_sign_smul c hk, x_sign_smul c (k • G)⟩, ?_⟩
  rw [schnorr]
  module

/-- A key with what its tweaks have accumulated: it is `gacc • Q + tacc • G` for the key `Q` without
tweaks. -/
structure Tweaked (E : Type) (n : ℕ) where
  key : E
  gacc : ZMod n
  tacc : ZMod n

def Tweaked.tweak (t : Tweaked E n) (tweak : ZMod n × Bool) : Tweaked E n :=
  let g := if tweak.2 then sign c n t.key else 1
  ⟨g • t.key + tweak.1 • G, g * t.gacc, g * t.tacc + tweak.1⟩

theorem Tweaked.tweak_key {t : Tweaked E n} {Q : E} (h : t.key = t.gacc • Q + t.tacc • G)
    (tweak : ZMod n × Bool) :
    (t.tweak c G tweak).key = (t.tweak c G tweak).gacc • Q + (t.tweak c G tweak).tacc • G := by
  simp only [Tweaked.tweak]
  rw [h]
  module

def Tweaked.tweaks (t : Tweaked E n) (tweaks : List (ZMod n × Bool)) : Tweaked E n :=
  tweaks.foldl (Tweaked.tweak c G) t

theorem Tweaked.tweaks_key {t : Tweaked E n} {Q : E} (h : t.key = t.gacc • Q + t.tacc • G)
    (tweaks : List (ZMod n × Bool)) :
    (t.tweaks c G tweaks).key = (t.tweaks c G tweaks).gacc • Q + (t.tweaks c G tweaks).tacc • G := by
  induction tweaks generalizing t with
  | nil => exact h
  | cons tweak tweaks ih => exact ih (t.tweak_key c G h tweak)

/-- A signer's secret numbers, with the coefficient of the key in the sum of all keys. -/
structure Share (n : ℕ) where
  seckey : ZMod n
  coeff : ZMod n
  k₁ : ZMod n
  k₂ : ZMod n

def Share.sign (b e signR signQ gacc : ZMod n) (share : Share n) : ZMod n :=
  signR * (share.k₁ + b * share.k₂) + e * share.coeff * (signQ * gacc * share.seckey)

def sumKeys (shares : List (Share n)) : ZMod n := (shares.map fun s => s.coeff * s.seckey).sum

def sumNonces (b : ZMod n) (shares : List (Share n)) : ZMod n :=
  (shares.map (·.k₁)).sum + b * (shares.map (·.k₂)).sum

theorem sum_sign (b e signR signQ gacc : ZMod n) (shares : List (Share n)) :
    (shares.map (Share.sign b e signR signQ gacc)).sum
      = signR * sumNonces b shares + e * signQ * gacc * sumKeys shares := by
  induction shares with
  | nil => simp [sumNonces, sumKeys]
  | cons share shares ih =>
    simp only [List.map_cons, List.sum_cons, ih, Share.sign, sumNonces, sumKeys]
    ring

/-- The parts of all signers, with the tweaks' contribution, are a signature for the tweaked key. -/
theorem verifies_sum (challenge : X → X → ZMod n) (b : ZMod n) (shares : List (Share n))
    (t : Tweaked E n) (ht : t.key = t.gacc • sumKeys shares • G + t.tacc • G) (hkey : t.key ≠ 0)
    (hnonce : sumNonces b shares • G ≠ 0) : let R := sumNonces b shares • G
    let e := challenge (c.x R) (c.x t.key)
    Verifies c G challenge (c.x t.key) (c.x R)
      ((shares.map (Share.sign b e (sign c n R) (sign c n t.key) t.gacc)).sum
        + e * sign c n t.key * t.tacc) := by
  intro R e
  refine ⟨sign c n t.key • t.key, sign c n R • R,
    ⟨sign_smul_ne_zero c hkey, even_sign_smul c hkey, x_sign_smul c t.key⟩,
    ⟨sign_smul_ne_zero c hnonce, even_sign_smul c hnonce, x_sign_smul c R⟩, ?_⟩
  have hsplit : sign c n t.key • t.key
      = sign c n t.key • t.gacc • sumKeys shares • G + sign c n t.key • t.tacc • G := by
    nth_rewrite 2 [ht]
    rw [smul_add]
  rw [sum_sign, hsplit]
  show _ = sign c n R • sumNonces b shares • G + e • _
  module

end XOnly
