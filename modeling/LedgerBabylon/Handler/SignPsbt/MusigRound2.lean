import LedgerBabylon.Handler.Clients
import LedgerBabylon.Handler.SignPsbt.Flow
import LedgerBabylon.Musig.Signatures

/-!
# Round 2 of MuSig2 on any input

The signing flow has the operations of MuSig2 as parameters. Here they are those of the device, with what
happens to be in memory where a function uses it before it writes to it. If the key infos can be fetched
and the keys and nonces are points, they can be aggregated. If not, a partial signature may be computed
all the same.
-/

namespace LedgerBabylon

open Endian Exec List

/-- What is in memory when the functions of MuSig2 are called. -/
structure MusigMemory where
  keys : Nat → PointT
  keyagg : MusigKeyaggContext
  halves₁ : Nat → PointT
  halves₂ : Nat → PointT
  aggnonce : MusigPubnonce
  sign : MusigStack

section

variable {σ : Type} (dev : Device σ) (g : GlobalState) (curve : Curve) (mem : MusigMemory)

/-- The device with the operations of MuSig2 written out. -/
def Device.withMusig : Device σ :=
  { dev with
    musigKeyAgg := fun keys =>
      let Q := (LedgerBabylon.musigKeyAgg dev.crypto curve keys mem.keys mem.keyagg).2.Q
      (if Q.evenY then 2 else 3) :: beBytes 32 Q.x
    musigNonceAgg := fun nonces =>
      let (code, aggnonce) := LedgerBabylon.musigNonceAgg curve nonces mem.halves₁ mem.halves₂ mem.aggnonce
      (0 ≤ code, aggnonce)
    musigNonceGen := fun rand pk aggpk => (LedgerBabylon.musigNonceGen dev.crypto curve rand pk aggpk).map Prod.fst
    musigSign := fun secnonce sk ctx => (LedgerBabylon.musigSign dev.crypto curve secnonce sk ctx mem.sign).toOption }

/-- The encoding of a point: the parity, and the x coordinate of a point on the curve. -/
def Curve.IsEncoding (bytes : Bytes) : Prop :=
  (bytes.headD 0 = 2 ∨ bytes.headD 0 = 3) ∧ beNat (bytes.drop 1) < curve.p
    ∧ ∃ y, y ^ 2 % curve.p = (beNat (bytes.drop 1) ^ 3 + 7) % curve.p

/-- All key infos were fetched and parsed, and all keys and nonces are points. -/
structure MusigGathered.Decodes (d : MusigGathered) : Prop where
  fetched : d.fetched
  keys : ∀ key ∈ d.info.keys, curve.IsEncoding key
  nonces : ∀ nonce ∈ d.nonces, curve.IsEncoding (splitPubnonce nonce).rS1
    ∧ curve.IsEncoding (splitPubnonce nonce).rS2

/-- What a partial signature should only be computed from: the data decode, and both aggregations report
success. -/
structure MusigGathered.Valid (d : MusigGathered) : Prop extends d.Decodes curve where
  keyAgg : (musigKeyAgg dev.crypto curve d.info.keys mem.sign.keys mem.sign.keyagg).1
  nonceAgg : 0 ≤ (musigNonceAgg curve (d.nonces.map splitPubnonce) mem.halves₁ mem.halves₂ mem.aggnonce).1

def Curve.OnCurve (P : PointT) : Prop := P.prefixByte = 4 ∧ P.y ^ 2 % curve.p = (P.x ^ 3 + 7) % curve.p

/-- Roots can be computed as it is done for `p`, and the SDK multiplies points of the curve. -/
structure Curve.Sound : Prop where
  prime : curve.p.Prime
  p_mod_four : curve.p % 4 = 3
  scalarMult {P : PointT} (h : curve.OnCurve P) (k : Nat) : curve.scalarMult P k ≠ .error

variable {dev curve mem}

theorem sub_sq_mod {p y : Nat} (hy : y ≤ p) : (p - y) ^ 2 % p = y ^ 2 % p := by
  apply (ZMod.natCast_eq_natCast_iff' _ _ p).mp
  push_cast [Nat.cast_sub hy]
  simp

namespace Curve.Sound

variable (hcurve : curve.Sound)

include hcurve

/-- The power that is computed for a root of a square is one. -/
theorem root_sq {c : Nat} (h : ∃ y, y ^ 2 % curve.p = c) :
    (c ^ ((curve.p + 1) / 4) % curve.p) ^ 2 % curve.p = c := by
  obtain ⟨y, rfl⟩ := h
  have hlt : y % curve.p < curve.p := Nat.mod_lt y hcurve.prime.pos
  rw [Nat.pow_mod y]
  generalize y % curve.p = y at hlt
  rcases Nat.eq_zero_or_pos y with rfl | hpos
  · have hquarter : (curve.p + 1) / 4 ≠ 0 := by
      have := hcurve.p_mod_four
      omega
    simp [hquarter]
  · rcases sqrt_mod hcurve.prime hcurve.p_mod_four hlt hpos with hroot | hroot
    · rw [hroot]
    · rw [hroot, sub_sq_mod hlt.le]

theorem liftX_onCurve {x : Nat} (hx : ∃ y, y ^ 2 % curve.p = (x ^ 3 + 7) % curve.p) (out : PointT) :
    curve.OnCurve (curve.liftX x out).2 ∧ (curve.liftX x out).2.y ≤ curve.p := by
  have hroot := hcurve.root_sq hx
  have hlt : ((x ^ 3 + 7) % curve.p) ^ ((curve.p + 1) / 4) % curve.p < curve.p :=
    Nat.mod_lt _ hcurve.prime.pos
  simp only [Curve.liftX, powm_eq, Nat.mod_add_mod, hroot, ne_eq, not_true_eq_false, if_false]
  split
  · exact ⟨⟨rfl, by rw [sub_sq_mod hlt.le, hroot]⟩, Nat.sub_le _ _⟩
  · exact ⟨⟨rfl, hroot⟩, hlt.le⟩

theorem cpoint_of_isEncoding {bytes : Bytes} (h : curve.IsEncoding bytes) (out : PointT) :
    ∃ P, curve.cpoint bytes out = some P ∧ curve.OnCurve P := by
  obtain ⟨hhead, -, hx⟩ := h
  obtain ⟨⟨htag, hy⟩, hle⟩ := hcurve.liftX_onCurve hx out
  have hfinite : (curve.liftX (beNat (bytes.drop 1)) out).2.isInfinite = false := by
    rw [PointT.isInfinite, htag]
    rfl
  simp only [Curve.cpoint, hfinite, Bool.false_eq_true, if_false]
  rcases hhead with hhead | hhead
  · rw [if_pos hhead]
    exact ⟨_, rfl, htag, hy⟩
  · rw [hhead]
    refine ⟨_, rfl, ?_⟩
    simp only [Curve.pointNegate, hfinite, Bool.false_eq_true, if_false, Curve.OnCurve, true_and]
    rw [sub_sq_mod hle, hy]

theorem pointMul_of_onCurve {P : PointT} (h : curve.OnCurve P) (k : Nat) : ∃ Q, curve.pointMul P k = some Q := by
  unfold Curve.pointMul
  split_ifs
  · exact ⟨_, rfl⟩
  · cases hmult : curve.scalarMult P k with
    | ok | infinitePoint => exact ⟨_, rfl⟩
    | error => exact absurd hmult (hcurve.scalarMult h k)

/-- Keys that are points can be aggregated, from any sum on. -/
theorem musigKeyAggLoop_of_isEncoding (pubkeys : List Bytes) (stack : Nat → PointT) {keys : List Bytes}
    (hkeys : ∀ key ∈ keys, curve.IsEncoding key) (i : Nat) (Q : PointT) :
    (musigKeyAggLoop dev.crypto curve pubkeys stack keys i Q).1 := by
  induction keys generalizing i Q with
  | nil => rfl
  | cons key keys ih =>
    obtain ⟨hkey, hrest⟩ := forall_mem_cons.mp hkeys
    obtain ⟨P, hpoint, hP⟩ := hcurve.cpoint_of_isEncoding hkey (stack i)
    obtain ⟨R, hmul⟩ := hcurve.pointMul_of_onCurve hP (musigKeyAggCoeff dev.crypto curve pubkeys key)
    simp only [musigKeyAggLoop, hpoint, hmul]
    exact ih hrest _ _

theorem musigNonceSum_of_isEncoding (stack : Nat → PointT) {halves : List Bytes}
    (hhalves : ∀ half ∈ halves, curve.IsEncoding half) (i : Nat) (R : PointT) :
    ∃ sum, musigNonceSum curve stack halves i R = .ok sum := by
  induction halves generalizing i R with
  | nil => exact ⟨R, rfl⟩
  | cons half halves ih =>
    obtain ⟨hhalf, hrest⟩ := forall_mem_cons.mp hhalves
    obtain ⟨P, hpoint, -⟩ := hcurve.cpoint_of_isEncoding hhalf (stack i)
    simp only [musigNonceSum, hpoint]
    exact ih hrest _ _

/-- What decodes can be aggregated. -/
theorem valid_of_decodes {d : MusigGathered} (h : d.Decodes curve) : d.Valid dev curve mem := by
  have hhalves (half : MusigPubnonce → Bytes)
      (hhalf : ∀ nonce ∈ d.nonces, curve.IsEncoding (half (splitPubnonce nonce))) :
      ∀ bytes ∈ (d.nonces.map splitPubnonce).map half, curve.IsEncoding bytes := by
    simpa using hhalf
  refine { h with keyAgg := ?_, nonceAgg := ?_ }
  · have hloop := @musigKeyAggLoop_of_isEncoding _ dev _ hcurve d.info.keys mem.sign.keys _ h.keys 0 .infinity
    unfold musigKeyAgg
    split
    · simp_all
    · rfl
  · obtain ⟨R₁, h1⟩ := hcurve.musigNonceSum_of_isEncoding mem.halves₁
      (hhalves (·.rS1) fun nonce hn => (h.nonces nonce hn).1) 0 .infinity
    obtain ⟨R₂, h2⟩ := hcurve.musigNonceSum_of_isEncoding mem.halves₂
      (hhalves (·.rS2) fun nonce hn => (h.nonces nonce hn).2) 0 .infinity
    rw [musigNonceAgg, h1]
    dsimp only
    rw [h2]

end Curve.Sound

end

/-- A policy with the keys of two cosigners in one musig expression, and a client that has the key infos
and a nonce for each key. -/
structure Cosigners where
  curve : Curve
  keyInfos : List Bytes
  own : Bytes
  other : Bytes
  aggregate : Bytes
  nonce : Bytes

namespace Cosigners

def crypto : Crypto where
  pubkeyVersion := 0x043587CF
  sha256 _ := .ofNat 1
  ripemd160 _ := []
  hmacSha512 _ _ := replicate 64 0
  addPoint _ pubkey := some pubkey
  addPointXonly _ _ := none
  pubkeyAtPath _ := none
  privkeyAtPath _ := some (beBytes 32 1)
  pubkeyOf _ := none
  ecdsaSign _ _ := none
  schnorrSign _ _ := none

def keysRoot : Digest := .ofNat 1

def map : MerkleizedMapCommitment := ⟨2, .ofNat 2, .ofNat 3⟩

def global : GlobalState where
  protocolVersion := 1
  masterKeyFingerprint := 0
  txVersion := 2
  locktime := 0
  nInputs := 1
  inputsRoot := .ofNat 0
  nOutputs := 1
  outputsRoot := .ofNat 0
  header := ⟨2, [], 0, .inl [], 2, keysRoot⟩
  policy := .tr ⟨0, 1, .normal 0, 0⟩ (some (.leaf (.withKey none .pk ⟨0, 1, .musig [0, 1], 1⟩)))

def memory : MusigMemory where
  keys _ := .infinity
  keyagg := ⟨.infinity, 0, 0⟩
  halves₁ _ := .infinity
  halves₂ _ := .infinity
  aggnonce := ⟨replicate 33 0, replicate 33 0⟩
  sign := ⟨fun _ => .infinity, ⟨.infinity, 0, 0⟩, .infinity, .infinity, [], []⟩

def hashes : TxHashes := ⟨.ofNat 0, .ofNat 0, .ofNat 0, .ofNat 0, .ofNat 0⟩

def sighash : Bytes := replicate 32 7

def world : World (List Bool) := ⟨⟨[], .empty, []⟩, .zero, []⟩

variable (c : Cosigners)

def nonceField (pubkey : Bytes) : Bytes := PSBT_IN_MUSIG2_PUB_NONCE :: pubkey ++ c.aggregate ++ replicate 32 0

def known : KnownData where
  trees := [(keysRoot, c.keyInfos), (map.keysRoot, [c.nonceField c.own, c.nonceField c.other]),
    (map.valuesRoot, [c.own ++ c.own, c.nonce])]
  preimages := []

def plain : Device (List Bool) where
  crypto
  env := { Environment.known crypto.sha256 c.known with
    musigRound2 := fun _ => return some (replicate 32 1) }
  nbgl := true
  uninitialised _ := 0
  overread _ := 0
  formatScript _ := none
  musigKeyAgg _ := []
  musigNonceAgg _ := (false, ⟨[], []⟩)
  musigNonceGen _ _ _ := none
  musigSign _ _ _ := none
  walletHmac _ := []

def device : Device (List Bool) := c.plain.withMusig c.curve memory

def keyexpr : KeyexprInfo :=
  { KeyexprInfo.zero with
    keyExpr := ⟨0, 1, .musig [0, 1], 1⟩
    index := 1
    pubkey := { ExtPubkey.zero with compressedPubkey := c.aggregate }
    internalPubkey := { ExtPubkey.zero with compressedPubkey := c.own }
    isTapscript := true }

def info : MusigPerInputInfo :=
  ⟨[c.own, c.other], c.aggregate, [(replicate 32 0, false), (replicate 32 0, false)], .ofNat 1⟩

def gathered : MusigGathered := ⟨true, c.info, replicate 32 1, [c.own ++ c.own, c.nonce]⟩

def fetchKeys : Fetch (List Bool) (Bool × List Bytes) :=
  fetchMusigKeys c.device (walletDerivationInfo global .zero) [0, 1]

def afterKeys : Session (List Bool) := finalState c.fetchKeys world.session

def afterNonces : Session (List Bool) := finalState (gatherNonces c.device c.keyexpr map c.info) c.afterKeys

/-- The run of the two cosigners, up to what is computed from their data. -/
structure Runs (psig : Bytes) : Prop where
  keys : returned? c.fetchKeys world.session = some (true, [c.own, c.other])
  sorted : sortKeys [c.own, c.other] = [c.own, c.other]
  nonces : returned? (gatherNonces c.device c.keyexpr map c.info) c.afterKeys =
    some (replicate 32 1, [c.own ++ c.own, c.nonce])
  signed : returned? (signGathered c.device c.keyexpr 0 c.gathered sighash)
    { world with session := c.afterNonces } = some psig

variable {c} {psig : Bytes}

theorem Runs.gather (h : c.Runs psig) :
    gatherMusig c.device global hashes c.keyexpr map .zero none 0 [0, 1] world.session =
      .ok c.gathered c.afterNonces := by
  have hinfo : computeMusigPerInputInfo c.device global hashes c.keyexpr .zero none 0 [0, 1]
      world.session = .ok (true, c.info) c.afterKeys := by
    refine (bind_of_ok (ok_of_returned? h.keys)).trans ?_
    simp only [if_true, h.sorted]
    rfl
  exact (bind_of_ok hinfo).trans (bind_of_ok (ok_of_returned? h.nonces))

theorem Runs.sign (h : c.Runs psig) :
    ∃ w', musigPartialSignatureFor c.device global hashes c.keyexpr map .zero none 0 [0, 1] sighash world =
      .ok (c.info, psig) w' :=
  ⟨_, (bind_of_ok (fetch_ok_iff.mpr ⟨_, h.gather, rfl⟩)).trans (bind_of_ok (ok_of_returned? h.signed))⟩

end Cosigners

/-- Two cosigners on the small curve, with the keys `G` and `2G`. -/
def smallCosigners : Cosigners where
  curve := SmallCurve.curve
  keyInfos := [
    text "tpubD6NzVbkrYhZ4WLczPJWReQycCJdd6YVWXubbVUFnJ5KgU5MDQrD998ZJLSA645vtXxvLVMYxGpY7cprLAieFr68AQfshMi26Wb9GPYMUgp7",
    text "tpubD6NzVbkrYhZ4WLczPJWReQycCJdd6YVWXubbVUFnJ5KgU5MDQrD998ZJLU6qEKNvPPbZdB8fBQA7a9T75qFyVny3CJwobrhzWF9etj97Hfu"]
  own := 2 :: beBytes 32 2
  other := 3 :: beBytes 32 7
  aggregate := 3 :: beBytes 32 35
  nonce := 3 :: beBytes 32 7 ++ 3 :: beBytes 32 35

theorem smallCosigners_run : smallCosigners.Runs (beBytes 32 1) where
  keys := by decide +kernel
  sorted := mergeSort_of_pairwise (by decide +kernel)
  nonces := by decide +kernel
  signed := by decide +kernel

theorem smallCurve_sound : SmallCurve.curve.Sound where
  prime := SmallCurve.laws.prime_p
  p_mod_four := rfl
  scalarMult {P} _ k := by
    show SmallCurve.result _ ≠ .error
    unfold SmallCurve.result
    split <;> simp

theorem smallCosigners_decodes : smallCosigners.gathered.Decodes SmallCurve.curve where
  fetched := rfl
  keys := by
    have hown : SmallCurve.curve.IsEncoding smallCosigners.own := ⟨.inl rfl, by decide, 12, by decide⟩
    have hother : SmallCurve.curve.IsEncoding smallCosigners.other := ⟨.inr rfl, by decide, 7, by decide⟩
    exact forall_mem_cons.mpr ⟨hown, forall_mem_singleton.mpr hother⟩
  nonces := by
    have hfirst : SmallCurve.curve.IsEncoding (3 :: beBytes 32 7) := ⟨.inr rfl, by decide, 7, by decide⟩
    have hsecond : SmallCurve.curve.IsEncoding (3 :: beBytes 32 35) := ⟨.inr rfl, by decide, 21, by decide⟩
    have hown : SmallCurve.curve.IsEncoding (2 :: beBytes 32 2) := ⟨.inl rfl, by decide, 12, by decide⟩
    exact forall_mem_cons.mpr ⟨⟨hown, hown⟩, forall_mem_singleton.mpr ⟨hfirst, hsecond⟩⟩

def pointG : Bytes := beBytes 33 0x0279be667ef9dcbbac55a06295ce870b07029bfcdb2dce28d959f2815b16f81798

/-- The curve of Bitcoin, with the operations that the run needs: multiples by 0 and 1, and `G + 2G`. -/
def secp256k1 : Curve where
  p := 0xfffffffffffffffffffffffffffffffffffffffffffffffffffffffefffffc2f
  n := Crypto.secp256k1N
  generatorX := 0x79be667ef9dcbbac55a06295ce870b07029bfcdb2dce28d959f2815b16f81798
  generatorY := 0x483ada7726a3c4655da4fbfc0e1108a8fd17b448a68554199c47d08ffb10d4b8
  addPoint P Q :=
    if P.x = 0x79be667ef9dcbbac55a06295ce870b07029bfcdb2dce28d959f2815b16f81798 ∧
        Q.x = 0xc6047f9441ed7d6d3045406e95c07cd85c778e4b8cef3ca7abac09b95c709ee5 then
      .ok 0xf9308a019258c31049344f85f89d5229b531c845836f99b08601f113bce036f9
        0x388f7b0f632de8140fe337e62a37f3566500a99934c2231b6cb9fd7584b8e672
    else .error
  scalarMult P k := if k = 0 then .infinitePoint else if k = 1 then .ok P.x P.y else .error

def badNonceCosigners : Cosigners where
  curve := secp256k1
  keyInfos := [
    text "tpubD6NzVbkrYhZ4WLczPJWReQycCJdd6YVWXubbVUFnJ5KgU5MDQrD998ZJLT5hqNKRA9cJzkh4D7oXwCpwFUWWWkHR9zPeBk1hnWBJKKYAUMM",
    text "tpubD6NzVbkrYhZ4WLczPJWReQycCJdd6YVWXubbVUFnJ5KgU5MDQrD998ZJLTfJ9V86tG2tZJVUSoZLbetvmEJdoWBqvphF1TzDHgzGbzrCazB"]
  own := pointG
  other := beBytes 33 0x02c6047f9441ed7d6d3045406e95c07cd85c778e4b8cef3ca7abac09b95c709ee5
  aggregate := beBytes 33 0x02f9308a019258c31049344f85f89d5229b531c845836f99b08601f113bce036f9
  nonce := 5 :: replicate 65 0

theorem badNonceCosigners_run : badNonceCosigners.Runs (beBytes 32 3) where
  keys := by decide +kernel
  sorted := mergeSort_of_pairwise (by decide +kernel)
  nonces := by decide +kernel
  signed := by decide +kernel

end LedgerBabylon
