import LedgerBabylon.Musig.Signatures

/-!
# Taproot tweaks

The key of a wallet script is tweaked from the x coordinate of a public key, the secret key that signs
for it from the secret key. The first lifts the coordinate to the even point and adds points, the second
negates the secret key if its point is odd and adds modulo the order of the group. Both come to the same.
-/

namespace LedgerBabylon

open Endian

namespace Curve

variable (curve : Curve)

def secp256k1Point (k : Nat) : Option PointT :=
  match curve.scalarMult curve.generator k with
  | .ok x y => some ⟨4, x, y⟩
  | .infinitePoint | .error => none

/-- The sum of `t * G` and the even point with an x coordinate, which is lifted in `stack`: parity and x
coordinate. -/
def addPointXonly (t x : Nat) (stack : PointT) : Option (UInt8 × Bytes) :=
  if curve.n ≤ t then none
  else
    match curve.liftX x stack with
    | (false, _) => none
    | (true, lifted) =>
      match curve.secp256k1Point t with
      | none => none
      | some Q =>
        match curve.addPoint Q lifted with
        | .ok x y => some (UInt8.ofNat (y % 2), beBytes 32 x)
        | .infinitePoint | .error => none

end Curve

def Crypto.taptweak (crypto : Crypto) (pubkey h : Bytes) : Nat :=
  beNat (crypto.taggedHash taptweakTag (pubkey ++ h)).bytes

namespace Curve

variable (curve : Curve) (crypto : Crypto)

def trTweakPubkey (pubkey h : Bytes) (stack : PointT) : Option (UInt8 × Bytes) :=
  curve.addPointXonly (crypto.taptweak pubkey h) (beNat pubkey) stack

/-- `crypto_tr_tweak_seckey` of a key below the order: whether it succeeds, and the output. -/
def trTweakSeckey (seckey h out : Bytes) : Bool × Bytes :=
  match curve.secp256k1Point (beNat seckey) with
  | none => (false, out)
  | some P =>
    let k := if P.y % 2 = 1 then curve.n - beNat seckey else beNat seckey
    let t := crypto.taptweak (beBytes 32 P.x) h
    if curve.n ≤ t then (false, beBytes 32 k) else (true, beBytes 32 ((k + t) % curve.n))

end Curve

structure Crypto.OnCurve (crypto : Crypto) (curve : Curve) : Prop where
  n : curve.n = secp256k1N
  addPointXonly : ∀ k x stack, crypto.addPointXonly k x = curve.addPointXonly (beNat k) (beNat x) stack
  pubkeyOf : ∀ seckey, crypto.pubkeyOf seckey = (curve.secp256k1Point (beNat seckey)).bind PointT.compressed

theorem Curve.secp256k1Point_compressed {curve : Curve} {k : Nat} {P : PointT}
    (h : curve.secp256k1Point k = some P) :
    P.compressed = some ((if P.y % 2 = 1 then 3 else 2) :: beBytes 32 P.x) := by
  unfold Curve.secp256k1Point at h
  split at h
  · cases h
    rfl
  all_goals cases h

theorem Crypto.OnCurve.trTweakPubkey {crypto : Crypto} {curve : Curve} (h : crypto.OnCurve curve)
    (pubkey data : Bytes) (stack : PointT) :
    crypto.trTweakPubkey pubkey data = curve.trTweakPubkey crypto pubkey data stack :=
  h.addPointXonly _ _ stack

theorem Crypto.OnCurve.trTweakSeckey {crypto : Crypto} {curve : Curve} (h : crypto.OnCurve curve)
    (seckey data : Bytes) :
    crypto.trTweakSeckey seckey data = (curve.trTweakSeckey crypto seckey data seckey).2 := by
  unfold Crypto.trTweakSeckey Curve.trTweakSeckey
  rw [h.pubkeyOf]
  cases hpoint : curve.secp256k1Point (beNat seckey) with
  | none => rfl
  | some P =>
    rw [Option.bind_some, Curve.secp256k1Point_compressed hpoint]
    have hodd : ((if P.y % 2 = 1 then 3 else 2 : UInt8) = 3) ↔ P.y % 2 = 1 := by
      split_ifs <;> simp [*]
    simp only [List.headD_cons, List.drop_succ_cons, List.drop_zero, h.n, taptweak, hodd]
    split_ifs <;> rfl

section

variable {curve : Curve} {E : Type} [AddCommGroup E] [DecidableEq E] (laws : CurveLaws curve E)

theorem CurveLaws.secp256k1Point_eq {k : Nat} (hk : k < curve.n) (hne : k • laws.G ≠ 0) :
    curve.secp256k1Point k = some (laws.point (k • laws.G)) := by
  rw [Curve.secp256k1Point, laws.generator, laws.point_of_ne laws.G_ne_zero,
    laws.mul laws.G k laws.G_ne_zero (hk.trans laws.n_lt) hne, laws.point_of_ne hne]

theorem beNat_beBytes_of_lt {k : Nat} (hk : k < 2 ^ 256) : beNat (beBytes 32 k) = k := by
  rw [beNat, beBytes, List.reverse_reverse, leNat_leBytes]
  exact Nat.mod_eq_of_lt hk

theorem CurveLaws.addPointXonly_x {P : E} (hP : P ≠ 0) {t : Nat} (ht : t < curve.n)
    (htG : t • laws.G ≠ 0) (hsum : laws.evenPoint P + t • laws.G ≠ 0) (stack : PointT) :
    curve.addPointXonly t (laws.x P) stack = some (UInt8.ofNat (laws.y (laws.evenPoint P + t • laws.G) % 2),
        beBytes 32 (laws.x (laws.evenPoint P + t • laws.G))) := by
  have heven := laws.evenPoint_ne_zero hP
  rw [add_comm] at hsum ⊢
  simp only [Curve.addPointXonly, if_neg (Nat.not_le.mpr ht), laws.liftX_x hP,
    laws.secp256k1Point_eq ht htG, laws.point_of_ne htG, laws.point_of_ne heven,
    laws.add _ _ htG heven hsum]

variable [Module (ZMod curve.n) E]

omit [DecidableEq E] in
theorem CurveLaws.evenSeckey_smul {d : Nat} (hd : d ≤ curve.n) :
    (if laws.y (d • laws.G) % 2 = 1 then curve.n - d else d) • laws.G = laws.evenPoint (d • laws.G) := by
  rw [CurveLaws.evenPoint]
  split_ifs
  · rw [laws.nsmul_eq_smul, cast_n_sub hd, neg_smul, ← laws.nsmul_eq_smul]
  · rfl

/-- The tweaked secret key is the one of the sum of the points. -/
theorem CurveLaws.trTweakSeckey_eq (crypto : Crypto) {d : Nat} (hd : inRange curve d)
    (h out : Bytes) (ht : crypto.taptweak (beBytes 32 (laws.x (d • laws.G))) h < curve.n) :
    ∃ k < curve.n, curve.trTweakSeckey crypto (beBytes 32 d) h out = (true, beBytes 32 k) ∧
      k • laws.G = laws.evenPoint (d • laws.G) +
        crypto.taptweak (beBytes 32 (laws.x (d • laws.G))) h • laws.G := by
  have hP := laws.nsmul_G_ne_zero hd
  obtain ⟨-, hdn⟩ := inRange_iff.mp hd
  have hseckey := beNat_beBytes_of_lt (hdn.trans laws.n_lt)
  refine ⟨((if laws.y (d • laws.G) % 2 = 1 then curve.n - d else d) +
    crypto.taptweak (beBytes 32 (laws.x (d • laws.G))) h) % curve.n, Nat.mod_lt _ laws.prime_n.pos, ?_, ?_⟩
  · simp only [Curve.trTweakSeckey, hseckey, laws.secp256k1Point_eq hdn hP, laws.point_of_ne hP,
      if_neg (Nat.not_le.mpr ht)]
  · rw [laws.nsmul_eq_smul, ZMod.natCast_mod, ← laws.nsmul_eq_smul, add_smul, laws.evenSeckey_smul hdn.le]

/-- **The x-only public key of the tweaked secret key is the tweaked public key.** -/
theorem trTweak_commutes (crypto : Crypto) {d : Nat} (hd : inRange curve d) (h out : Bytes)
    (stack : PointT)
    (ht : inRange curve (crypto.taptweak (beBytes 32 (laws.x (d • laws.G))) h))
    (hsum : laws.evenPoint (d • laws.G) + crypto.taptweak (beBytes 32 (laws.x (d • laws.G))) h • laws.G ≠ 0) :
    ∃ seckey Q, curve.trTweakSeckey crypto (beBytes 32 d) h out = (true, seckey) ∧
      curve.secp256k1Point (beNat seckey) = some Q ∧
      curve.trTweakPubkey crypto (beBytes 32 (laws.x (d • laws.G))) h stack =
        some (UInt8.ofNat (Q.y % 2), beBytes 32 Q.x) ∧
      ∀ (challenge : Nat → Nat → ZMod curve.n) (k : ZMod curve.n), k • laws.G ≠ 0 →
        XOnly.Verifies laws.coordinates laws.G challenge Q.x (laws.x (k • laws.G))
          (XOnly.schnorr laws.coordinates laws.G challenge (beNat seckey : ZMod curve.n) k) := by
  have hP := laws.nsmul_G_ne_zero hd
  have hpubkey := beNat_beBytes_of_lt ((laws.x_lt _ hP).trans laws.p_lt)
  obtain ⟨-, htn⟩ := inRange_iff.mp ht
  obtain ⟨key, hkey, hseckey, hpoint⟩ := laws.trTweakSeckey_eq crypto hd h out htn
  rw [← hpoint] at hsum
  have hkey' := beNat_beBytes_of_lt (hkey.trans laws.n_lt)
  refine ⟨beBytes 32 key, laws.point (key • laws.G), hseckey, ?_, ?_, ?_⟩
  · rw [hkey']
    exact laws.secp256k1Point_eq hkey hsum
  · rw [Curve.trTweakPubkey, hpubkey, laws.addPointXonly_x hP htn (laws.nsmul_G_ne_zero ht) (hpoint ▸ hsum),
      laws.point_of_ne hsum, ← hpoint]
  · intro challenge k hk
    have hne : (key : ZMod curve.n) • laws.G ≠ 0 := by rwa [← laws.nsmul_eq_smul]
    have hverifies := XOnly.verifies_schnorr laws.coordinates laws.G challenge hne hk
    rw [← laws.nsmul_eq_smul] at hverifies
    rw [hkey', laws.x_point hsum]
    exact hverifies

end

/-- An odd key on the small curve, so that the secret key is negated. -/
theorem trTweak_commutes_smallCurve :
    ∃ seckey Q, SmallCurve.curve.trTweakSeckey SmallCurve.crypto (beBytes 32 3) [] [] = (true, seckey) ∧
      SmallCurve.curve.secp256k1Point (beNat seckey) = some Q ∧
      SmallCurve.curve.trTweakPubkey SmallCurve.crypto
        (beBytes 32 (SmallCurve.laws.x (3 • SmallCurve.laws.G))) [] .infinity =
          some (UInt8.ofNat (Q.y % 2), beBytes 32 Q.x) := by
  obtain ⟨seckey, Q, hseckey, hQ, hpubkey, -⟩ := trTweak_commutes SmallCurve.laws SmallCurve.crypto
    (d := 3) (by decide) [] [] .infinity (by decide +kernel) (by decide +kernel)
  exact ⟨seckey, Q, hseckey, hQ, hpubkey⟩

end LedgerBabylon
