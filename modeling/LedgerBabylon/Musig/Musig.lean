import LedgerBabylon.Crypto

/-!
# MuSig2

The operations of BIP-327 as the device computes them. Numbers of 32 bytes are natural numbers, and
points are kept with both coordinates. The curve's two operations are those of the SDK and are
parameters, as is what is in memory that a function uses before it writes to it: several results are
not checked, so that this memory matters when something fails.
-/

namespace LedgerBabylon

open Endian Exec

def powmLoop (m : Nat) : Nat → Nat → Nat → Nat → Nat
  | 0, _, _, acc => acc
  | bits + 1, a, e, acc =>
    powmLoop m bits (a * a % m) (e / 2) (if e % 2 = 1 then acc * a % m else acc)

/-- The power that `cx_math_powm_no_throw` of the SDK computes. -/
def powm (a e m : Nat) : Nat := powmLoop m (e.log2 + 1) (a % m) e (1 % m)

/-- `point_t`. A point at infinity starts with a zero byte, every other one with 4. -/
structure PointT where
  prefixByte : UInt8
  x : Nat
  y : Nat
  deriving DecidableEq

namespace PointT

def infinity : PointT := ⟨0, 0, 0⟩

def isInfinite (P : PointT) : Bool := P.prefixByte = 0

def evenY (P : PointT) : Bool := P.y % 2 = 0

/-- `crypto_get_compressed_pubkey`; there is no result if the first byte is not 4. -/
def compressed (P : PointT) : Option Bytes :=
  if P.prefixByte = 4 then some ((if P.y % 2 = 1 then 3 else 2) :: beBytes 32 P.x) else none

end PointT

inductive EcResult where
  | ok (x y : Nat)
  | infinitePoint
  | error
  deriving DecidableEq

structure Curve where
  p : Nat
  n : Nat
  generatorX : Nat
  generatorY : Nat
  /-- `cx_ecfp_add_point_no_throw` -/
  addPoint (P Q : PointT) : EcResult
  /-- `cx_ecfp_scalar_mult_no_throw` -/
  scalarMult (P : PointT) (k : Nat) : EcResult

namespace Curve

variable (curve : Curve)

def generator : PointT := ⟨4, curve.generatorX, curve.generatorY⟩

/-- `point_add`: whether it succeeds, and the output, which otherwise is as before. -/
def pointAdd (P₁ P₂ out : PointT) : Bool × PointT :=
  if P₁.isInfinite then (true, P₂)
  else if P₂.isInfinite then (true, P₁)
  else if P₁.x = P₂.x ∧ P₁.y ≠ P₂.y then (true, .infinity)
  else
    match curve.addPoint P₁ P₂ with
    | .ok x y => (true, ⟨4, x, y⟩)
    | .infinitePoint => (true, .infinity)
    | .error => (false, out)

def pointMul (P : PointT) (k : Nat) : Option PointT :=
  if P.isInfinite then some .infinity
  else
    match curve.scalarMult P k with
    | .ok x y => some ⟨4, x, y⟩
    | .infinitePoint => some .infinity
    | .error => none

def pointNegate (P : PointT) : PointT :=
  if P.isInfinite then .infinity else ⟨4, P.x, curve.p - P.y⟩

/-- `crypto_tr_lift_x`: whether it succeeds, and the output, whose coordinates hold intermediate results
and whose first byte is only written at the end. -/
def liftX (x : Nat) (out : PointT) : Bool × PointT :=
  let c := (powm x 3 curve.p + 7) % curve.p
  let y := powm c ((curve.p + 1) / 4) curve.p
  if powm y 2 curve.p ≠ c then (false, ⟨out.prefixByte, c, y⟩)
  else (true, ⟨4, x, if y % 2 = 1 then curve.p - y else y⟩)

/-- `cpoint`. The result of lifting is not checked, only whether the output is at infinity. -/
def cpoint (x : Bytes) (out : PointT) : Option PointT :=
  let (_, out) := curve.liftX (beNat (x.drop 1)) out
  if out.isInfinite then none
  else if x.headD 0 = 2 then some out
  else if x.headD 0 = 3 then some (curve.pointNegate out)
  else none

def cpointExt (x : Bytes) (out : PointT) : Option PointT :=
  if x.all (· = 0) then some .infinity else curve.cpoint x out

end Curve

def musigGetSecondKey (pubkeys : List Bytes) : Bytes :=
  (pubkeys.find? (· ≠ pubkeys.headD [])).getD (List.replicate 33 0)

structure MusigKeyaggContext where
  Q : PointT
  gacc : Nat
  tacc : Nat
  deriving DecidableEq

section

variable (crypto : Crypto) (curve : Curve)

def musigHashKeys (pubkeys : List Bytes) : Digest := crypto.taggedHash (text "KeyAgg list") pubkeys.flatten

def musigKeyAggCoeffInternal (pubkeys : List Bytes) (pk pk2 : Bytes) : Nat :=
  if pk = pk2 then 1
  else beNat (crypto.taggedHash (text "KeyAgg coefficient")
    ((musigHashKeys crypto pubkeys).bytes ++ pk)).bytes % curve.n

def musigKeyAggCoeff (pubkeys : List Bytes) (pk : Bytes) : Nat :=
  musigKeyAggCoeffInternal crypto curve pubkeys pk (musigGetSecondKey pubkeys)

/-- The loop of `musig_key_agg`: whether it ends, and the sum so far. Whether an addition succeeds is
not checked. `stack i` is where key `i` is lifted. -/
def musigKeyAggLoop (pubkeys : List Bytes) (stack : Nat → PointT) : List Bytes → Nat → PointT → Bool × PointT
  | [], _, Q => (true, Q)
  | pk :: rest, i, Q =>
    match curve.cpoint pk (stack i) with
    | none => (false, Q)
    | some P =>
      match curve.pointMul P (musigKeyAggCoeff crypto curve pubkeys pk) with
      | none => (false, Q)
      | some P => musigKeyAggLoop pubkeys stack rest (i + 1) (curve.pointAdd Q P Q).2

/-- `musig_key_agg`: whether it succeeds, and the context. The accumulators are only written if it
does. -/
def musigKeyAgg (pubkeys : List Bytes) (stack : Nat → PointT) (ctx : MusigKeyaggContext) :
    Bool × MusigKeyaggContext :=
  match musigKeyAggLoop crypto curve pubkeys stack pubkeys 0 .infinity with
  | (false, Q) => (false, { ctx with Q })
  | (true, Q) => (true, ⟨Q, 1, 0⟩)

end

structure MusigSecnonce where
  k1 : Nat
  k2 : Nat
  pk : Bytes
  deriving DecidableEq

structure MusigPubnonce where
  rS1 : Bytes
  rS2 : Bytes
  deriving DecidableEq

section

variable (crypto : Crypto) (curve : Curve)

def musigNonceHash (rand pk aggpk : Bytes) (i : UInt8) : Nat := beNat (crypto.taggedHash (text "MuSig/nonce")
    (rand ++ 33 :: pk ++ 32 :: aggpk ++ [0x00] ++ [0, 0, 0, 0] ++ [i])).bytes

def musigNonceGen (rand pk aggpk : Bytes) : Option (MusigSecnonce × MusigPubnonce) := do
  let k1 := musigNonceHash crypto rand pk aggpk 0 % curve.n
  let k2 := musigNonceHash crypto rand pk aggpk 1 % curve.n
  let R₁ ← curve.pointMul curve.generator k1
  let R₂ ← curve.pointMul curve.generator k2
  let rS1 ← R₁.compressed
  let rS2 ← R₂.compressed
  return (⟨k1, k2, pk⟩, ⟨rS1, rS2⟩)

/-- The sum of one half of the public nonces, from index `i` on; or the index of the first one that is
not acceptable. -/
def musigNonceSum (stack : Nat → PointT) : List Bytes → Nat → PointT → Except Nat PointT
  | [], _, R => .ok R
  | half :: rest, i, R =>
    match curve.cpoint half (stack i) with
    | none => .error i
    | some P => musigNonceSum stack rest (i + 1) (curve.pointAdd R P R).2

def writeNonce (R : PointT) (out : Bytes) : Bytes :=
  if R.isInfinite then List.replicate 33 0 else R.compressed.getD out

def musigNonceAgg (pubnonces : List MusigPubnonce) (stack1 stack2 : Nat → PointT)
    (out : MusigPubnonce) : Int × MusigPubnonce :=
  match musigNonceSum curve stack1 (pubnonces.map (·.rS1)) 0 .infinity with
  | .error i => (-i - 1, out)
  | .ok R₁ =>
    let out := { out with rS1 := writeNonce R₁ out.rS1 }
    match musigNonceSum curve stack2 (pubnonces.map (·.rS2)) 0 .infinity with
    | .error i => (-i - 1, out)
    | .ok R₂ => (0, { out with rS2 := writeNonce R₂ out.rS2 })

end

/-- `musig_session_context_t`; a tweak comes with whether it is for the x-only key. -/
structure MusigSessionContext where
  aggnonce : MusigPubnonce
  pubkeys : List Bytes
  tweaks : List (Nat × Bool)
  msg : Bytes

inductive MusigFault where
  /-- the call returns -1 -/
  | failed
  /-- the application stops at an assertion -/
  | assertion
  deriving DecidableEq

structure MusigStack where
  keys : Nat → PointT
  keyagg : MusigKeyaggContext
  R₁ : PointT
  R₂ : PointT
  ownPk : Bytes
  coeffPk : Bytes

structure MusigSessionValues where
  Q : PointT
  gacc : Nat
  tacc : Nat
  b : Nat
  R : PointT
  e : Nat

variable (crypto : Crypto) (curve : Curve)

def hasEvenY (P : PointT) : Except MusigFault Bool :=
  if P.isInfinite then .error .assertion else .ok P.evenY

def okOrFailed {α : Type} : Option α → Except MusigFault α
  | none => .error .failed
  | some a => .ok a

def checkOrFailed (cond : Bool) : Except MusigFault Unit := if cond then .ok () else .error .failed

def evenSign (even : Bool) : Nat := if even then 1 else curve.n - 1

def tweakParity (Q : PointT) (isXonly : Bool) : Except MusigFault Bool :=
  if isXonly then hasEvenY Q else .ok true

def tweakedKey (Q : PointT) (g tweak : Nat) : Option PointT := do
  let Q ← curve.pointMul Q g
  let T ← curve.pointMul curve.generator tweak
  let sum := (curve.pointAdd Q T Q).2
  if sum.isInfinite then none else some sum

def applyTweak (ctx : MusigKeyaggContext) (tweak : Nat × Bool) : Except MusigFault MusigKeyaggContext := do
  let even ← tweakParity ctx.Q tweak.2
  let g := evenSign curve even
  checkOrFailed (tweak.1 < curve.n)
  let Q ← okOrFailed (tweakedKey curve ctx.Q g tweak.1)
  return ⟨Q, g * ctx.gacc % curve.n, (g * ctx.tacc % curve.n + tweak.1) % curve.n⟩

def applyTweaks (ctx : MusigKeyaggContext) (tweaks : List (Nat × Bool)) :
    Except MusigFault MusigKeyaggContext :=
  tweaks.foldlM (applyTweak curve) ctx

def musigSessionPoint (aggnonce : MusigPubnonce) (b : Nat) (stack : MusigStack) :
    Except MusigFault PointT := do
  let R₁ ← okOrFailed (curve.cpointExt aggnonce.rS1 stack.R₁)
  let R₂ ← okOrFailed (curve.cpointExt aggnonce.rS2 stack.R₂)
  let R₂ ← okOrFailed (curve.pointMul R₂ b)
  match curve.pointAdd R₁ R₂ R₁ with
  | (false, _) => .error .failed
  | (true, R) => return if R.isInfinite then curve.generator else R

def musigNonceCoeff (aggnonce : MusigPubnonce) (xQ : Nat) (msg : Bytes) : Nat :=
  beNat (crypto.taggedHash (text "MuSig/noncecoef")
    (aggnonce.rS1 ++ aggnonce.rS2 ++ beBytes 32 xQ ++ msg)).bytes

def bip340Challenge (xR xQ : Nat) (msg : Bytes) : Nat :=
  beNat (crypto.taggedHash (text "BIP0340/challenge") (beBytes 32 xR ++ beBytes 32 xQ ++ msg)).bytes

/-- `musig_get_session_values`. Whether the keys could be aggregated is not checked. -/
def musigGetSessionValues (ctx : MusigSessionContext) (stack : MusigStack) :
    Except MusigFault MusigSessionValues := do
  let (_, keyagg) := musigKeyAgg crypto curve ctx.pubkeys stack.keys stack.keyagg
  let keyagg ← applyTweaks curve keyagg ctx.tweaks
  let b := musigNonceCoeff crypto ctx.aggnonce keyagg.Q.x ctx.msg
  let R ← musigSessionPoint curve ctx.aggnonce b stack
  let e := bip340Challenge crypto R.x keyagg.Q.x ctx.msg
  return ⟨keyagg.Q, keyagg.gacc, keyagg.tacc, b, R, e⟩

def musigGetSessionKeyAggCoeff (ctx : MusigSessionContext) (P : PointT) (stack : MusigStack) :
    Except MusigFault Nat :=
  let pk := P.compressed.getD stack.coeffPk
  if pk ∈ ctx.pubkeys then .ok (musigKeyAggCoeff crypto curve ctx.pubkeys pk) else .error .failed

def inRange (k : Nat) : Bool := 0 < k && k < curve.n

/-- The signature of `musig_sign`, from the session's values and the coefficient of the own key. -/
def musigPartialSignature (secnonce : MusigSecnonce) (sk : Nat) (v : MusigSessionValues) (a : Nat)
    (evenR evenQ : Bool) : Nat :=
  let k₁ := if evenR then secnonce.k1 else curve.n - secnonce.k1
  let k₂ := if evenR then secnonce.k2 else curve.n - secnonce.k2
  let d := evenSign curve evenQ * v.gacc % curve.n * sk % curve.n
  let ead := v.e * a % curve.n * d % curve.n
  ((k₁ + v.b * k₂ % curve.n) % curve.n + ead) % curve.n

/-- `musig_sign`. The nonce is erased when the session's values are known; no caller uses it again. -/
def musigSign (secnonce : MusigSecnonce) (sk : Nat) (ctx : MusigSessionContext) (stack : MusigStack) :
    Except MusigFault Nat := do
  let v ← musigGetSessionValues crypto curve ctx stack
  checkOrFailed (inRange curve secnonce.k1 && inRange curve secnonce.k2)
  let evenR ← hasEvenY v.R
  checkOrFailed (inRange curve sk)
  let P ← okOrFailed (curve.pointMul curve.generator sk)
  checkOrFailed (P.compressed.getD stack.ownPk = secnonce.pk)
  let a ← musigGetSessionKeyAggCoeff crypto curve ctx P stack
  let evenQ ← hasEvenY v.Q
  return musigPartialSignature curve secnonce sk v a evenR evenQ

end LedgerBabylon
