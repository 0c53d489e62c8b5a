import LedgerBabylon.Musig.Curve

/-!
# Partial signatures add up

All signers of a session compute the same values from the aggregate nonce, the keys and the tweaks. The
sum of their partial signatures, with the contribution of the tweaks, is a signature of BIP-340 for the
tweaked aggregate key.
-/

namespace LedgerBabylon

open Endian List

structure MusigSigner where
  sk : Nat
  k1 : Nat
  k2 : Nat
  stack : MusigStack

section

variable {curve : Curve} {E : Type} [AddCommGroup E] [Module (ZMod curve.n) E]
  (crypto : Crypto) (laws : CurveLaws curve E)

namespace MusigSigner

def InRange (curve : Curve) (s : MusigSigner) : Prop :=
  inRange curve s.sk ∧ inRange curve s.k1 ∧ inRange curve s.k2

instance (s : MusigSigner) : Decidable (s.InRange curve) := inferInstanceAs (Decidable (_ ∧ _ ∧ _))

def pk (s : MusigSigner) : Bytes := laws.encode (s.sk • laws.G)

def secnonce (s : MusigSigner) : MusigSecnonce := ⟨s.k1, s.k2, s.pk laws⟩

def pubnonce (s : MusigSigner) : MusigPubnonce := ⟨laws.encode (s.k1 • laws.G), laws.encode (s.k2 • laws.G)⟩

def share (pubkeys : List Bytes) (s : MusigSigner) : XOnly.Share curve.n :=
  ⟨s.sk, musigKeyAggCoeff crypto curve pubkeys (s.pk laws), s.k1, s.k2⟩

end MusigSigner

def musigPubkeys (signers : List MusigSigner) : List Bytes := signers.map (·.pk laws)

def musigShares (signers : List MusigSigner) : List (XOnly.Share curve.n) :=
  signers.map (MusigSigner.share crypto laws (musigPubkeys laws signers))

def musigKey (signers : List MusigSigner) (tweaks : List (Nat × Bool)) : XOnly.Tweaked E curve.n :=
  XOnly.Tweaked.tweaks laws.coordinates laws.G
    ⟨XOnly.sumKeys (musigShares crypto laws signers) • laws.G, 1, 0⟩
    (tweaks.map fun tweak => ((tweak.1 : ZMod curve.n), tweak.2))

end

section

variable {curve : Curve} {k : Nat}

theorem inRange_iff : inRange curve k ↔ 0 < k ∧ k < curve.n := by
  simp [inRange]

theorem cast_n_sub (hk : k ≤ curve.n) : ((curve.n - k : Nat) : ZMod curve.n) = -k := by
  rw [Nat.cast_sub hk, ZMod.natCast_self, zero_sub]

theorem beNat_lt (d : Digest) : beNat d.bytes < 2 ^ 256 := by
  have h := leNat_lt d.bytes.reverse
  rw [length_reverse, d.length_bytes] at h
  exact h

variable {E : Type} [AddCommGroup E]

theorem CurveLaws.cast_evenSign (laws : CurveLaws curve E) (P : E) :
    ((evenSign curve (laws.coordinates.even P) : Nat) : ZMod curve.n)
      = XOnly.sign laws.coordinates curve.n P := by
  rw [evenSign, XOnly.sign]
  split_ifs
  · exact Nat.cast_one
  · rw [cast_n_sub laws.prime_n.one_lt.le, Nat.cast_one]

theorem CurveLaws.evenSign_lt (laws : CurveLaws curve E) (even : Bool) : evenSign curve even < 2 ^ 256 := by
  have hlt := laws.n_lt
  rw [evenSign]
  split_ifs
  · norm_num
  · omega

theorem CurveLaws.tweakParity_point [DecidableEq E] (laws : CurveLaws curve E) {Q : E} (hQ : Q ≠ 0) (xonly : Bool) :
    ∃ even, tweakParity (laws.point Q) xonly = .ok even ∧ ((evenSign curve even : Nat) : ZMod curve.n)
        = if xonly then XOnly.sign laws.coordinates curve.n Q else 1 := by
  cases xonly with
  | false => exact ⟨true, rfl, by simp [evenSign]⟩
  | true => exact ⟨_, laws.hasEvenY_point hQ, laws.cast_evenSign Q⟩

theorem CurveLaws.keyAggCoeff_lt (laws : CurveLaws curve E) (crypto : Crypto)
    (pubkeys : List Bytes) (pk : Bytes) :
    musigKeyAggCoeff crypto curve pubkeys pk < 2 ^ 256 := by
  rw [musigKeyAggCoeff, musigKeyAggCoeffInternal]
  split_ifs
  · norm_num
  · exact (Nat.mod_lt _ laws.prime_n.pos).trans laws.n_lt

theorem CurveLaws.cast_partialSignature (laws : CurveLaws curve E) (crypto : Crypto)
    {s : MusigSigner} (hrange : s.InRange curve)
    (pubkeys : List Bytes) (v : MusigSessionValues) (R Q : E) :
    ((musigPartialSignature curve (s.secnonce laws) s.sk v
        (musigKeyAggCoeff crypto curve pubkeys (s.pk laws)) (laws.coordinates.even R)
        (laws.coordinates.even Q) : Nat) : ZMod curve.n)
      = (s.share crypto laws pubkeys).sign v.b v.e (XOnly.sign laws.coordinates curve.n R)
          (XOnly.sign laws.coordinates curve.n Q) v.gacc := by
  have hneg : ∀ {k : Nat}, inRange curve k →
      ((if laws.coordinates.even R = true then k else curve.n - k : Nat) : ZMod curve.n)
        = XOnly.sign laws.coordinates curve.n R * k := by
    intro k hk
    rw [XOnly.sign]
    split_ifs
    · rw [one_mul]
    · rw [cast_n_sub (inRange_iff.mp hk).2.le, neg_one_mul]
  have h1 := hneg hrange.2.1
  have h2 := hneg hrange.2.2
  simp only [musigPartialSignature, MusigSigner.secnonce, ZMod.natCast_mod, Nat.cast_add, Nat.cast_mul,
    h1, h2, laws.cast_evenSign, XOnly.Share.sign, MusigSigner.share]
  ring

variable [Module (ZMod curve.n) E]

theorem CurveLaws.nsmul_eq_smul (_ : CurveLaws curve E) (k : Nat) (P : E) : k • P = (k : ZMod curve.n) • P :=
  (Nat.cast_smul_eq_nsmul (ZMod curve.n) k P).symm

theorem CurveLaws.nsmul_G_ne_zero (laws : CurveLaws curve E) (hk : inRange curve k) :
    k • laws.G ≠ 0 := by
  have : Fact curve.n.Prime := ⟨laws.prime_n⟩
  obtain ⟨hpos, hlt⟩ := inRange_iff.mp hk
  have hne : (k : ZMod curve.n) ≠ 0 := by
    intro hzero
    exact absurd (Nat.le_of_dvd hpos ((ZMod.natCast_eq_zero_iff k curve.n).mp hzero)) (by omega)
  rw [laws.nsmul_eq_smul]
  exact smul_ne_zero hne laws.G_ne_zero

end

theorem musigKey_eq {curve : Curve} {E : Type} [AddCommGroup E] [Module (ZMod curve.n) E]
    (crypto : Crypto) (laws : CurveLaws curve E) (signers : List MusigSigner)
    (tweaks : List (Nat × Bool)) :
    (musigKey crypto laws signers tweaks).key = (musigKey crypto laws signers tweaks).gacc
          • XOnly.sumKeys (musigShares crypto laws signers) • laws.G
        + (musigKey crypto laws signers tweaks).tacc • laws.G := by
  apply XOnly.Tweaked.tweaks_key
  rw [one_smul, zero_smul, add_zero]

section

variable {curve : Curve} {E : Type} [AddCommGroup E] [Module (ZMod curve.n) E] [DecidableEq E]
  (crypto : Crypto) (laws : CurveLaws curve E)

variable {signers : List MusigSigner}

theorem musigKeyAggLoop_signers (pubkeys : List Bytes) (stack : Nat → PointT)
    (hrange : ∀ s ∈ signers, s.InRange curve) (i : Nat) (Q : E) :
    musigKeyAggLoop crypto curve pubkeys stack (musigPubkeys laws signers) i (laws.point Q)
      = (true, laws.point
          (Q + XOnly.sumKeys (signers.map (MusigSigner.share crypto laws pubkeys)) • laws.G)) := by
  induction signers generalizing i Q with
  | nil => simp [musigPubkeys, musigKeyAggLoop, XOnly.sumKeys]
  | cons s signers ih =>
    have hkey := laws.nsmul_G_ne_zero (hrange s mem_cons_self).1
    simp only [musigPubkeys, map_cons, musigKeyAggLoop, MusigSigner.pk, laws.cpoint_encode hkey,
      laws.pointMul_point _ (laws.keyAggCoeff_lt crypto pubkeys _), laws.pointAdd_point]
    rw [← MusigSigner.pk]
    refine (ih (fun s' hs' => hrange s' (mem_cons_of_mem _ hs')) _ _).trans ?_
    congr 2
    simp only [XOnly.sumKeys, map_cons, sum_cons, MusigSigner.share, laws.nsmul_eq_smul,
      add_smul, mul_smul, add_assoc]

theorem musigKeyAgg_signers (stack : Nat → PointT) (ctx : MusigKeyaggContext)
    (hrange : ∀ s ∈ signers, s.InRange curve) :
    musigKeyAgg crypto curve (musigPubkeys laws signers) stack ctx
      = (true, ⟨laws.point (musigKey crypto laws signers []).key, 1, 0⟩) := by
  have hloop := musigKeyAggLoop_signers crypto laws (musigPubkeys laws signers) stack hrange 0 0
  rw [laws.point_zero, zero_add] at hloop
  rw [musigKeyAgg, hloop]
  rfl

theorem musigNonceSum_signers (stack : Nat → PointT) (nonce : MusigSigner → Nat)
    (hrange : ∀ s ∈ signers, inRange curve (nonce s))
    (i : Nat) (R : E) :
    musigNonceSum curve stack (signers.map fun s => laws.encode (nonce s • laws.G)) i (laws.point R)
      = .ok (laws.point (R + (signers.map fun s => (nonce s : ZMod curve.n)).sum • laws.G)) := by
  induction signers generalizing i R with
  | nil => simp [musigNonceSum]
  | cons s signers ih =>
    have hnonce := laws.nsmul_G_ne_zero (hrange s mem_cons_self)
    simp only [map_cons, musigNonceSum, laws.cpoint_encode hnonce, laws.pointAdd_point]
    rw [ih (fun s' hs' => hrange s' (mem_cons_of_mem _ hs'))]
    simp only [sum_cons, laws.nsmul_eq_smul, add_smul, add_assoc]

def musigAggnonce (signers : List MusigSigner) (out : MusigPubnonce) : MusigPubnonce :=
  let shares := musigShares crypto laws signers
  ⟨writeNonce (laws.point ((shares.map (·.k₁)).sum • laws.G)) out.rS1,
    writeNonce (laws.point ((shares.map (·.k₂)).sum • laws.G)) out.rS2⟩

theorem musigNonceAgg_signers (stack1 stack2 : Nat → PointT) (out : MusigPubnonce)
    (hrange : ∀ s ∈ signers, s.InRange curve) :
    musigNonceAgg curve (signers.map (·.pubnonce laws)) stack1 stack2 out
      = (0, musigAggnonce crypto laws signers out) := by
  have h1 := musigNonceSum_signers laws stack1 (·.k1) (fun s hs => (hrange s hs).2.1) 0 0
  have h2 := musigNonceSum_signers laws stack2 (·.k2) (fun s hs => (hrange s hs).2.2) 0 0
  rw [laws.point_zero, zero_add] at h1 h2
  simp only [musigNonceAgg, map_map]
  rw [show (MusigPubnonce.rS1 ∘ fun s : MusigSigner => s.pubnonce laws)
      = fun s => laws.encode (s.k1 • laws.G) from rfl,
    show (MusigPubnonce.rS2 ∘ fun s : MusigSigner => s.pubnonce laws)
      = fun s => laws.encode (s.k2 • laws.G) from rfl, h1, h2]
  simp only [musigAggnonce, musigShares, map_map]
  rfl

structure Holds (ctx : MusigKeyaggContext) (t : XOnly.Tweaked E curve.n) : Prop where
  key : ctx.Q = laws.point t.key
  gacc : (ctx.gacc : ZMod curve.n) = t.gacc
  tacc : (ctx.tacc : ZMod curve.n) = t.tacc

theorem applyTweak_holds {ctx : MusigKeyaggContext} {t : XOnly.Tweaked E curve.n}
    (h : Holds laws ctx t) (hkey : t.key ≠ 0) {tweak : Nat} {xonly : Bool} (htweak : tweak < curve.n)
    (hne : (t.tweak laws.coordinates laws.G (tweak, xonly)).key ≠ 0) :
    ∃ ctx', applyTweak curve ctx (tweak, xonly) = .ok ctx'
      ∧ Holds laws ctx' (t.tweak laws.coordinates laws.G (tweak, xonly)) := by
  obtain ⟨even, heven, hg⟩ := laws.tweakParity_point hkey xonly
  have hsum : evenSign curve even • t.key + tweak • laws.G
      = (t.tweak laws.coordinates laws.G (tweak, xonly)).key := by
    rw [laws.nsmul_eq_smul, laws.nsmul_eq_smul, hg]
    rfl
  have hQ := laws.tweakedKey_point (Q := t.key) (laws.evenSign_lt even) (htweak.trans laws.n_lt)
    (by rw [hsum]; exact hne)
  refine ⟨⟨laws.point (t.tweak laws.coordinates laws.G (tweak, xonly)).key,
    evenSign curve even * ctx.gacc % curve.n,
    (evenSign curve even * ctx.tacc % curve.n + tweak) % curve.n⟩, ?_, rfl, ?_, ?_⟩
  · rw [← hsum]
    simp [applyTweak, h.key, heven, hQ, okOrFailed, checkOrFailed, htweak, bind, Except.bind, pure,
      Except.pure]
  · simp [XOnly.Tweaked.tweak, hg, h.gacc]
  · simp [XOnly.Tweaked.tweak, hg, h.tacc]

theorem applyTweaks_holds {ctx : MusigKeyaggContext} {t : XOnly.Tweaked E curve.n}
    (h : Holds laws ctx t) {tweaks : List (Nat × Bool)} (htweaks : ∀ tweak ∈ tweaks, tweak.1 < curve.n)
    (hkeys : ∀ k ≤ tweaks.length, (t.tweaks laws.coordinates laws.G
      ((tweaks.take k).map fun tweak => ((tweak.1 : ZMod curve.n), tweak.2))).key ≠ 0) :
    ∃ ctx', applyTweaks curve ctx tweaks = .ok ctx' ∧ Holds laws ctx' (t.tweaks laws.coordinates laws.G
      (tweaks.map fun tweak => ((tweak.1 : ZMod curve.n), tweak.2))) := by
  induction tweaks generalizing ctx t with
  | nil => exact ⟨ctx, rfl, h⟩
  | cons tweak tweaks ih =>
    obtain ⟨ctx1, hstep, hholds⟩ := applyTweak_holds laws h (hkeys 0 (Nat.zero_le _))
      (htweaks tweak mem_cons_self) (hkeys 1 (by simp))
    obtain ⟨ctx', hrest, hend⟩ := ih hholds (fun t ht => htweaks t (mem_cons_of_mem _ ht))
      (fun k hk => hkeys (k + 1) (Nat.succ_le_succ hk))
    refine ⟨ctx', ?_, hend⟩
    rw [applyTweaks, foldlM_cons, hstep]
    exact hrest

theorem musigSessionPoint_aggnonce (signers : List MusigSigner) (out : MusigPubnonce) {b : Nat}
    (hb : b < 2 ^ 256) (stack : MusigStack)
    (hne : XOnly.sumNonces b (musigShares crypto laws signers) • laws.G ≠ 0) :
    musigSessionPoint curve (musigAggnonce crypto laws signers out) b stack
      = .ok (laws.point (XOnly.sumNonces b (musigShares crypto laws signers) • laws.G)) := by
  have hsum : XOnly.sumNonces b (musigShares crypto laws signers) • laws.G
      = ((musigShares crypto laws signers).map (·.k₁)).sum • laws.G
        + b • ((musigShares crypto laws signers).map (·.k₂)).sum • laws.G := by
    rw [XOnly.sumNonces, laws.nsmul_eq_smul, add_smul, mul_smul]
  rw [hsum] at hne ⊢
  simp [musigSessionPoint, musigAggnonce, laws.cpointExt_writeNonce, laws.pointMul_point _ hb,
    laws.pointAdd_point, laws.isInfinite_point, hne, okOrFailed, bind, Except.bind, pure, Except.pure]

def musigSessionB (signers : List MusigSigner) (out : MusigPubnonce) (tweaks : List (Nat × Bool))
    (msg : Bytes) : Nat :=
  musigNonceCoeff crypto (musigAggnonce crypto laws signers out)
    (laws.x (musigKey crypto laws signers tweaks).key) msg

def musigNonce (signers : List MusigSigner) (out : MusigPubnonce) (tweaks : List (Nat × Bool))
    (msg : Bytes) : E :=
  XOnly.sumNonces (musigSessionB crypto laws signers out tweaks msg)
    (musigShares crypto laws signers) • laws.G

structure NoInfinity (signers : List MusigSigner) (out : MusigPubnonce) (tweaks : List (Nat × Bool))
    (msg : Bytes) : Prop where
  keys : ∀ k ≤ tweaks.length, (musigKey crypto laws signers (tweaks.take k)).key ≠ 0
  nonce : musigNonce crypto laws signers out tweaks msg ≠ 0

section

variable {signers : List MusigSigner} {out : MusigPubnonce} {tweaks : List (Nat × Bool)} {msg : Bytes}

def musigContext (signers : List MusigSigner) (out : MusigPubnonce) (tweaks : List (Nat × Bool))
    (msg : Bytes) : MusigSessionContext :=
  ⟨musigAggnonce crypto laws signers out, musigPubkeys laws signers, tweaks, msg⟩

def musigValues (signers : List MusigSigner) (out : MusigPubnonce) (tweaks : List (Nat × Bool))
    (msg : Bytes) (gacc tacc : Nat) : MusigSessionValues :=
  let R := musigNonce crypto laws signers out tweaks msg
  let key := (musigKey crypto laws signers tweaks).key
  ⟨laws.point key, gacc, tacc, musigSessionB crypto laws signers out tweaks msg, laws.point R,
    bip340Challenge crypto (laws.x R) (laws.x key) msg⟩

theorem NoInfinity.key (h : NoInfinity crypto laws signers out tweaks msg) :
    (musigKey crypto laws signers tweaks).key ≠ 0 := by
  have hall := h.keys tweaks.length le_rfl
  rwa [take_length] at hall

theorem musigGetSessionValues_signers (hrange : ∀ s ∈ signers, s.InRange curve)
    (htweaks : ∀ tweak ∈ tweaks, tweak.1 < curve.n)
    (hfinite : NoInfinity crypto laws signers out tweaks msg) :
    ∃ gacc tacc : Nat, (gacc : ZMod curve.n) = (musigKey crypto laws signers tweaks).gacc
      ∧ (tacc : ZMod curve.n) = (musigKey crypto laws signers tweaks).tacc
      ∧ ∀ stack, musigGetSessionValues crypto curve (musigContext crypto laws signers out tweaks msg) stack
        = .ok (musigValues crypto laws signers out tweaks msg gacc tacc) := by
  have hstart : Holds laws ⟨laws.point (musigKey crypto laws signers []).key, 1, 0⟩
      (⟨XOnly.sumKeys (musigShares crypto laws signers) • laws.G, 1, 0⟩ : XOnly.Tweaked E curve.n) :=
    ⟨rfl, Nat.cast_one, Nat.cast_zero⟩
  obtain ⟨ctx, hctx, hholds⟩ := applyTweaks_holds laws hstart htweaks hfinite.keys
  have hctxQ : ctx.Q = laws.point (musigKey crypto laws signers tweaks).key := hholds.key
  refine ⟨ctx.gacc, ctx.tacc, hholds.gacc, hholds.tacc, fun stack => ?_⟩
  have hR : musigSessionPoint curve (musigAggnonce crypto laws signers out)
      (musigSessionB crypto laws signers out tweaks msg) stack
        = .ok (laws.point (musigNonce crypto laws signers out tweaks msg)) :=
    musigSessionPoint_aggnonce crypto laws signers out (beNat_lt _) stack hfinite.nonce
  have hx : ctx.Q.x = laws.x (musigKey crypto laws signers tweaks).key := by
    rw [hctxQ, laws.x_point (hfinite.key crypto laws)]
  have hb : musigNonceCoeff crypto (musigAggnonce crypto laws signers out)
      (laws.x (musigKey crypto laws signers tweaks).key) msg
        = musigSessionB crypto laws signers out tweaks msg := rfl
  simp only [musigGetSessionValues, musigContext, musigKeyAgg_signers crypto laws _ _ hrange]
  rw [hctx]
  simp only [bind, Except.bind, hx, hb]
  rw [hR]
  simp only [laws.x_point hfinite.nonce, hctxQ, pure, Except.pure, musigValues]

def musigPsig (signers : List MusigSigner) (out : MusigPubnonce) (tweaks : List (Nat × Bool))
    (msg : Bytes) (gacc tacc : Nat) (s : MusigSigner) : Nat :=
  musigPartialSignature curve (s.secnonce laws) s.sk
    (musigValues crypto laws signers out tweaks msg gacc tacc)
    (musigKeyAggCoeff crypto curve (musigPubkeys laws signers) (s.pk laws))
    (laws.coordinates.even (musigNonce crypto laws signers out tweaks msg))
    (laws.coordinates.even (musigKey crypto laws signers tweaks).key)

theorem musigSign_signer {s : MusigSigner} (hs : s ∈ signers) (hrange : s.InRange curve)
    (hfinite : NoInfinity crypto laws signers out tweaks msg) {gacc tacc : Nat}
    (hvalues : ∀ stack, musigGetSessionValues crypto curve
      (musigContext crypto laws signers out tweaks msg) stack
        = .ok (musigValues crypto laws signers out tweaks msg gacc tacc)) :
    musigSign crypto curve (s.secnonce laws) s.sk (musigContext crypto laws signers out tweaks msg) s.stack
      = .ok (musigPsig crypto laws signers out tweaks msg gacc tacc s) := by
  obtain ⟨hsk, hk1, hk2⟩ := hrange
  have hlt := (inRange_iff.mp hsk).2.trans laws.n_lt
  have hpk := laws.compressed_point (laws.nsmul_G_ne_zero hsk)
  have hmem : s.pk laws ∈ musigPubkeys laws signers := mem_map_of_mem hs
  have hR := laws.hasEvenY_point hfinite.nonce
  have hQ := laws.hasEvenY_point (hfinite.key crypto laws)
  have hcoeff : musigGetSessionKeyAggCoeff crypto curve
      (musigContext crypto laws signers out tweaks msg) (laws.point (s.sk • laws.G)) s.stack
        = .ok (musigKeyAggCoeff crypto curve (musigPubkeys laws signers) (s.pk laws)) := by
    rw [musigGetSessionKeyAggCoeff, hpk, Option.getD_some, ← MusigSigner.pk]
    exact if_pos hmem
  rw [musigSign, hvalues s.stack]
  simp only [bind, Except.bind, MusigSigner.secnonce, hk1, hk2, hsk, Bool.and_self, checkOrFailed,
    if_true, musigValues, hR, hQ, laws.generator, laws.pointMul_point _ hlt, okOrFailed, hpk,
    Option.getD_some, MusigSigner.pk, decide_true, hcoeff, pure, Except.pure, musigPsig]

theorem cast_sum_musigPsig (hrange : ∀ s ∈ signers, s.InRange curve) (gacc tacc : Nat) :
    (((signers.map (musigPsig crypto laws signers out tweaks msg gacc tacc)).sum : Nat) : ZMod curve.n)
      = ((musigShares crypto laws signers).map
          (XOnly.Share.sign (musigSessionB crypto laws signers out tweaks msg)
            (bip340Challenge crypto (laws.x (musigNonce crypto laws signers out tweaks msg))
              (laws.x (musigKey crypto laws signers tweaks).key) msg)
            (XOnly.sign laws.coordinates curve.n (musigNonce crypto laws signers out tweaks msg))
            (XOnly.sign laws.coordinates curve.n (musigKey crypto laws signers tweaks).key) gacc)).sum := by
  rw [Nat.cast_list_sum, musigShares, map_map, map_map]
  congr 1
  apply map_congr_left
  intro s hs
  exact laws.cast_partialSignature crypto (hrange s hs) _ _ _ _

/-- The partial signatures of all signers are computed, and with the tweaks they add up to a signature
of BIP-340 for the tweaked aggregate key. -/
theorem musigSign_signers_verifies (hrange : ∀ s ∈ signers, s.InRange curve)
    (htweaks : ∀ tweak ∈ tweaks, tweak.1 < curve.n)
    (hfinite : NoInfinity crypto laws signers out tweaks msg) (stack1 stack2 : Nat → PointT) :
    let ctx := musigContext crypto laws signers out tweaks msg
    musigNonceAgg curve (signers.map (·.pubnonce laws)) stack1 stack2 out = (0, ctx.aggnonce)
      ∧ ∃ (v : MusigSessionValues) (psig : MusigSigner → Nat),
        (∀ stack, musigGetSessionValues crypto curve ctx stack = .ok v)
        ∧ (∀ s ∈ signers, musigSign crypto curve (s.secnonce laws) s.sk ctx s.stack = .ok (psig s))
        ∧ XOnly.Verifies laws.coordinates laws.G
          (fun xR xQ => (bip340Challenge crypto xR xQ msg : ZMod curve.n)) v.Q.x v.R.x
          (((signers.map psig).sum + v.e * evenSign curve v.Q.evenY * v.tacc) % curve.n : Nat) := by
  intro ctx
  obtain ⟨gacc, tacc, hgacc, htacc, hvalues⟩ :=
    musigGetSessionValues_signers crypto laws hrange htweaks hfinite
  refine ⟨musigNonceAgg_signers crypto laws stack1 stack2 out hrange, _, _, hvalues,
    fun s hs => musigSign_signer crypto laws hs (hrange s hs) hfinite hvalues, ?_⟩
  have hkey := hfinite.key crypto laws
  have hverifies := XOnly.verifies_sum laws.coordinates laws.G
    (fun xR xQ => (bip340Challenge crypto xR xQ msg : ZMod curve.n))
    (musigSessionB crypto laws signers out tweaks msg) (musigShares crypto laws signers)
    (musigKey crypto laws signers tweaks) (musigKey_eq crypto laws signers tweaks) hkey hfinite.nonce
  have heven : (laws.point (musigKey crypto laws signers tweaks).key).evenY
      = laws.coordinates.even (musigKey crypto laws signers tweaks).key := by
    rw [laws.point_of_ne hkey]
    rfl
  simp only [musigValues, laws.x_point hkey, laws.x_point hfinite.nonce, heven]
  rw [ZMod.natCast_mod, Nat.cast_add, Nat.cast_mul, Nat.cast_mul, laws.cast_evenSign, htacc,
    cast_sum_musigPsig crypto laws hrange, hgacc]
  exact hverifies

end

end

namespace SmallCurve

def points : List (Nat × Nat) :=
  [(0, 0), (2, 12), (7, 7), (35, 21), (21, 18), (12, 12), (29, 31), (25, 18), (32, 40), (20, 40),
    (42, 7), (40, 25), (37, 36), (13, 21), (34, 40), (38, 21), (38, 22), (34, 3), (13, 22), (37, 7),
    (40, 18), (42, 36), (20, 3), (32, 3), (25, 25), (29, 12), (12, 31), (21, 25), (35, 22), (7, 36),
    (2, 31)]

def index (P : PointT) : Nat := points.idxOf (P.x, P.y)

def result (k : Nat) : EcResult :=
  if k = 0 then .infinitePoint else .ok (points.getD k (0, 0)).1 (points.getD k (0, 0)).2

def curve : Curve where
  p := 43
  n := 31
  generatorX := 2
  generatorY := 12
  addPoint P Q := result ((index P + index Q) % 31)
  scalarMult P k := result ((index P * k) % 31)

instance : Module (ZMod curve.n) (ZMod 31) := inferInstanceAs (Module (ZMod 31) (ZMod 31))

def x (P : ZMod 31) : Nat := (points.getD P.val (0, 0)).1

def y (P : ZMod 31) : Nat := (points.getD P.val (0, 0)).2

theorem index_point (P : ZMod 31) : index ⟨4, x P, y P⟩ = P.val := by
  revert P
  decide +kernel

theorem result_val {P : ZMod 31} (hP : P ≠ 0) : result P.val = .ok (x P) (y P) := by
  rw [result, if_neg (mt (ZMod.val_eq_zero P).mp hP), x, y]

theorem index_mul (P : ZMod 31) (k : Nat) : (index ⟨4, x P, y P⟩ * k) % 31 = (k • P).val := by
  rw [index_point, nsmul_eq_mul, ZMod.val_mul, ZMod.val_natCast, mul_comm, Nat.mod_mul_mod]

def laws : CurveLaws curve (ZMod 31) where
  x := x
  y := y
  G := 1
  prime_p := by decide +kernel
  p_mod_four := rfl
  p_lt := by norm_num [curve]
  prime_n := by decide +kernel
  n_lt := by norm_num [curve]
  G_ne_zero := by decide
  generatorX := rfl
  generatorY := rfl
  x_lt := by decide +kernel
  equation := by decide +kernel
  y_pos := by decide +kernel
  x_neg := by decide +kernel
  y_neg := by decide +kernel
  eq_or_eq_neg := by decide +kernel
  add P Q _ _ hne := by
    show result _ = _
    rw [index_point, index_point, ← ZMod.val_add, result_val hne]
  mul P k _ _ hne := by
    show result _ = _
    rw [index_mul, result_val hne]
  mul_zero P k _ _ hzero := by
    show result _ = _
    rw [index_mul, hzero]
    rfl

def crypto : Crypto where
  pubkeyVersion := 0x0488B21E
  sha256 _ := .ofNat 5
  ripemd160 _ := []
  hmacSha512 _ _ := []
  addPoint _ _ := none
  addPointXonly _ _ := none
  pubkeyAtPath _ := none
  privkeyAtPath _ := none
  pubkeyOf _ := none
  ecdsaSign _ _ := none
  schnorrSign _ _ := none

def stack : MusigStack := ⟨fun _ => ⟨9, 0, 0⟩, ⟨⟨9, 0, 0⟩, 0, 0⟩, ⟨9, 0, 0⟩, ⟨9, 0, 0⟩, [], []⟩

def signers : List MusigSigner := [⟨2, 4, 6, stack⟩, ⟨3, 7, 8, stack⟩, ⟨2, 1, 30, stack⟩]

def tweaks : List (Nat × Bool) := [(3, true), (9, false), (4, true)]

theorem signers_inRange : ∀ s ∈ signers, s.InRange curve := by
  decide +kernel

theorem noInfinity : NoInfinity crypto laws signers ⟨[], []⟩ tweaks [1, 2, 3] where
  keys := by decide +kernel
  nonce := by decide +kernel

end SmallCurve

/-- Three signers, two of them with the same key, and three tweaks. -/
theorem musigSign_smallCurve_verifies : ∃ (v : MusigSessionValues) (psig : MusigSigner → Nat),
      (∀ s ∈ SmallCurve.signers, musigSign SmallCurve.crypto SmallCurve.curve
        (s.secnonce SmallCurve.laws) s.sk (musigContext SmallCurve.crypto SmallCurve.laws
          SmallCurve.signers ⟨[], []⟩ SmallCurve.tweaks [1, 2, 3]) s.stack = .ok (psig s))
      ∧ XOnly.Verifies SmallCurve.laws.coordinates SmallCurve.laws.G
        (fun xR xQ => (bip340Challenge SmallCurve.crypto xR xQ [1, 2, 3] : ZMod SmallCurve.curve.n))
        v.Q.x v.R.x (((SmallCurve.signers.map psig).sum
          + v.e * evenSign SmallCurve.curve v.Q.evenY * v.tacc) % SmallCurve.curve.n : Nat) := by
  obtain ⟨-, v, psig, -, hsign, hverifies⟩ := musigSign_signers_verifies SmallCurve.crypto
    SmallCurve.laws SmallCurve.signers_inRange (by decide) SmallCurve.noInfinity
    SmallCurve.stack.keys SmallCurve.stack.keys
  exact ⟨v, psig, hsign, hverifies⟩

end LedgerBabylon
