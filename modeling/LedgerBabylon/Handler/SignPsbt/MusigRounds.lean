import LedgerBabylon.Handler.RegisteredKeys
import LedgerBabylon.Handler.SignPsbt.EnvironmentInvariants
import LedgerBabylon.Handler.SignPsbt.LeafHash
import LedgerBabylon.Musig.Sessions

/-!
# The two rounds of MuSig2

A client signs with MuSig2 in two runs. The first should yield public nonces and store the session, the
second find the session again and yield partial signatures. The functions of the first round are there,
`produce_and_yield_pubnonce`, `musigsession_round1_initialize` and `musigsession_commit`, but
`sign_transaction` calls none of them: sessions only leave the storage, and no nonce is yielded.
-/

namespace LedgerBabylon

open Exec

variable {σ α : Type}

structure WithSessions (σ : Type) where
  outside : σ
  signingState : MusigSigningState
  storage : MusigStorage
  yielded : List Bytes

def onOutside (x : Ask σ α) : Ask (WithSessions σ) α :=
  onPart WithSessions.outside (fun s e => { s with outside := e }) x

def Environment.withSessions (env : Environment σ) : Environment (WithSessions σ) where
  preimage hash outLen := onOutside (env.preimage hash outLen)
  leafElement root size index outLen := onOutside (env.leafElement root size index outLen)
  mapValue map key outLen := onOutside (env.mapValue map key outLen)
  streamMapValue map key := onOutside (env.streamMapValue map key)
  rawtx map key outputIndex := onOutside (env.rawtx map key outputIndex)
  bip32Derivation keyType valuesRoot size index :=
    onOutside (env.bip32Derivation keyType valuesRoot size index)
  yield response := do
    modify fun s => { s with yielded := s.yielded ++ [response] }
    onOutside (env.yield response)
  sendSw sw ec := onOutside (env.sendSw sw ec)
  confirm screen := onOutside (env.confirm screen)
  musigRound2 psbtSessionId := do
    let s ← get
    let (session, signingState, storage) :=
      musigsessionRound2Initialize psbtSessionId s.signingState s.storage
    set { s with signingState, storage }
    return session.map fun session => session.randRoot.bytes

def Device.withSessions (dev : Device σ) : Device (WithSessions σ) := { dev with env := dev.env.withSessions }

structure SigningAttempt (σ : Type) where
  protocolVersion : Nat
  raw : Bytes
  outside : σ

/-- The end of a run that starts with the given sessions. The signing state is zeroed before. -/
def SigningAttempt.finalWorld (attempt : SigningAttempt σ) (dev : Device σ) (storage : MusigStorage) :
    World (WithSessions σ) :=
  finalState (handlerSignPsbt dev.withSessions attempt.protocolVersion attempt.raw)
    (.initial ⟨attempt.outside, musigsessionInitializeSigningState, storage, []⟩)

def SigningAttempt.run (attempt : SigningAttempt σ) (dev : Device σ) (storage : MusigStorage) :
    WithSessions σ :=
  (attempt.finalWorld dev storage).session.env

theorem shrinks_musigsessionRound2Initialize (psbtSessionId : Digest) (state : MusigSigningState)
    (storage : MusigStorage) :
    Slots.Shrinks .zero storage (musigsessionRound2Initialize psbtSessionId state storage).2.2 := by
  unfold musigsessionRound2Initialize musigsessionPop
  split
  · cases Slots.first storage fun session => session.id = psbtSessionId with
    | none => exact fun _ => .inl rfl
    | some slot => exact Slots.shrinks_update storage slot
  · exact fun _ => .inl rfl

/-- Since the start of a run: sessions have only left the storage, and only signatures and partial
signatures were yielded. -/
structure SigningOnly (storage : MusigStorage) (s : WithSessions σ) : Prop where
  shrinks : Slots.Shrinks .zero storage s.storage
  yielded : ∀ response ∈ s.yielded, SigningResponse response

theorem SigningOnly.outside {storage : MusigStorage} (s : WithSessions σ) (e : σ)
    (h : SigningOnly storage s) : SigningOnly storage { s with outside := e } :=
  ⟨h.shrinks, h.yielded⟩

theorem withSessions_keeps (env : Environment σ) (storage : MusigStorage) :
    env.withSessions.Keeps (SigningOnly storage) where
  preimage _ _ := keeps_onPart SigningOnly.outside _
  leafElement _ _ _ _ := keeps_onPart SigningOnly.outside _
  mapValue _ _ _ := keeps_onPart SigningOnly.outside _
  streamMapValue _ _ := keeps_onPart SigningOnly.outside _
  rawtx _ _ _ := keeps_onPart SigningOnly.outside _
  bip32Derivation _ _ _ _ := keeps_onPart SigningOnly.outside _
  sendSw _ _ := keeps_onPart SigningOnly.outside _
  confirm _ := keeps_onPart SigningOnly.outside _
  musigRound2 psbtSessionId := by
    rw [keeps_iff]
    intro s hs
    refine ⟨hs.shrinks.trans ?_, hs.yielded⟩
    exact shrinks_musigsessionRound2Initialize psbtSessionId s.signingState s.storage

theorem keeps_yield (env : Environment σ) (storage : MusigStorage) {response : Bytes}
    (h : SigningResponse response) :
    Keeps (SigningOnly storage) (env.withSessions.yield response) := by
  apply keeps_bind
  · apply keeps_modify
    intro s hs
    refine ⟨hs.shrinks, fun r hr => ?_⟩
    rcases List.mem_append.mp hr with hold | hlast
    · exact hs.yielded r hold
    · rwa [List.mem_singleton.mp hlast]
  · intro _
    exact keeps_onPart SigningOnly.outside _

theorem SigningAttempt.signingOnly (attempt : SigningAttempt σ) (dev : Device σ)
    (storage : MusigStorage) : SigningOnly storage (attempt.run dev storage) := by
  apply handlerSignPsbt_keeps (withSessions_keeps dev.env storage)
    fun response h => keeps_yield dev.env storage h
  exact ⟨fun _ => .inl rfl, List.forall_mem_nil _⟩

def yieldMusigPubnonceTag : Nat := 0xFFFFFFFF

def IsMusigResponse (tag input : Nat) (response : Bytes) : Prop :=
  ∃ data, response = CCMD_YIELD :: varintWrite tag ++ varintWrite input ++ data

structure MusigCompletes (dev : Device σ) (storage : MusigStorage) (first second : SigningAttempt σ)
    (psbtSessionId : Digest) (inputs : List Nat) : Prop where
  pubnonces : ∀ input ∈ inputs, ∃ response ∈ (first.run dev storage).yielded,
    IsMusigResponse yieldMusigPubnonceTag input response
  stored : ∃ slot, ((first.run dev storage).storage slot).id = psbtSessionId
  partialSignatures : ∀ input ∈ inputs, ∃ response ∈ (second.run dev (first.run dev storage).storage).yielded,
      IsMusigResponse yieldMusigPartialSignatureTag input response

theorem varintWrite_head_ne {input : Nat} (h : input < maxNInputsCanSign) (rest : Bytes) :
    (varintWrite input ++ rest).head? ≠ some 0xFE := by
  have hinput : input < 512 := h
  unfold varintWrite varintSize
  by_cases hsmall : input ≤ 0xFC
  · rw [if_pos hsmall]
    intro heq
    have hbyte : UInt8.ofNat input = 0xFE := Option.some.inj heq
    have hnat := congrArg UInt8.toNat hbyte
    rw [UInt8.toNat_ofNat'] at hnat
    have : (0xFE : UInt8).toNat = 254 := rfl
    omega
  · rw [if_neg hsmall, if_pos (by omega)]
    simp

theorem SigningResponse.not_pubnonce {response : Bytes} (h : SigningResponse response)
    (input : Nat) : ¬IsMusigResponse yieldMusigPubnonceTag input response := by
  have htag : varintWrite yieldMusigPubnonceTag = [0xFE, 0xFF, 0xFF, 0xFF, 0xFF] := by decide
  rintro ⟨data, heq⟩
  rw [htag] at heq
  cases h with
  | signature hinput rest =>
    have htail : varintWrite _ ++ rest = 0xFE :: _ := (List.cons.inj heq).2
    apply varintWrite_head_ne hinput rest
    rw [htail]
    rfl
  | musigPartialSignature rest =>
    have hsignature : varintWrite yieldMusigPartialSignatureTag = [0xFE, 0xFE, 0xFF, 0xFF, 0xFF] := by
      decide
    rw [hsignature] at heq
    simp at heq

/-- Whatever the policy, the client and the cosigners do, two runs do not complete MuSig2 for any
input: the first one yields no nonce. -/
theorem musigRounds_never_complete (dev : Device σ) (storage : MusigStorage)
    (first second : SigningAttempt σ) (psbtSessionId : Digest) (input : Nat) (inputs : List Nat) :
    ¬MusigCompletes dev storage first second psbtSessionId (input :: inputs) := by
  intro h
  obtain ⟨response, hmem, hpubnonce⟩ := h.pubnonces input List.mem_cons_self
  exact ((first.signingOnly dev storage).yielded response hmem).not_pubnonce input hpubnonce

namespace Cosigned

open Endian Vault Leaf

def aggregatePubkey : Bytes := beBytes 33 0x0393587a06b64687edbf9b9e0fb04283888b1df2dcdeb18a6b5c0b7324911aa9ac

def changePubkey : Bytes := beBytes 33 0x026a2372e425bd9515437706d94e20c7e16ca1ae4bd3ee1147e86dbe2614706be1

def addressPubkey : Bytes := beBytes 33 0x03188729daff2d185c9a6c6cd3d9a19d2ae389b62fa909c4f64c267d4f6d930105

def taptweakTag : Digest := .ofNat 0xe80fe1639c9ca050e3af1b39c143c63e429cbceb15d940fbb5c5a1f4af57c5e9

def outputKey : Bytes := beBytes 32 0xcccf6b6b3b7091f3f234e7a8884989aa0a9378b818ac1310ec46e66ee5e9ae27

def aggregateHash : Digest := .ofNat 0x56edaa89ad715bd226c091838a2b5b5271d4c071deba03ad8c6be60ef284f27d

def hashTable : List (Bytes × Digest) := keyHashes ++ TwoKeys.cosignerHashes ++ [
    (aggregatePubkey, aggregateHash),
    (text "TapTweak", taptweakTag),
    (taptweakTag.bytes ++ taptweakTag.bytes ++ aggregatePubkey.drop 1,
      .ofNat 0x5ec44efdd2500b38ad74829e31b84fbef5d00c6f128a594d2957a0017b8d7321),
    (taptweakTag.bytes ++ taptweakTag.bytes ++ addressPubkey.drop 1,
      .ofNat 0x8584b6da98e12a7a63a66342bea8a29e7598d8192afbd94294ff9a920b02e426)]

/-- The device of the wallet with one key, which can derive the keys of the aggregate. -/
def crypto : Crypto :=
  { Vault.crypto with
    sha256 := sha256Table hashTable
    ripemd160 := fun message =>
      if message = aggregateHash.bytes then beBytes 20 0xb4600decc244500ca916230338638ea755b794e4
      else ripemd160 message
    hmacSha512 := fun _ message =>
      ([(aggregatePubkey ++ [0x00, 0x00, 0x00, 0x00],
          beBytes 64 0x38e70648ad4575e9dfbca44560cc4ba549e714b2fb799328b45116b45101c3cdd0953f00b199616df105a24f4d63c8e6d62807279b224f543dcd9fab604d4607),
        (changePubkey ++ [0x00, 0x00, 0x00, 0x00],
          beBytes 64 0x3e708bd9205156f8e7f3f36befca2185cb8aec867c64dfd4baae1a2e5d5d7f05bc9ec94a60f9ac6f0869e5d3ce4f287691833b3010d1d36da7be8da54766cbb7)].lookup
        message).getD []
    addPoint := fun _ point =>
      [(aggregatePubkey, changePubkey), (changePubkey, addressPubkey)].lookup point
    addPointXonly := fun _ x =>
      [(aggregatePubkey.drop 1, (0, outputKey)), (addressPubkey.drop 1,
          (1, beBytes 32 0x211007a4f5da236688473ed5fb6bcd637c9c67bb9020d92266daf87f2af3770e))].lookup x }

def policyId : Digest := .ofNat 0xd19f95bfcc2d8bcf459d0321d5c192ae2c83f440740ee231549c06aacf9ae36e

def template : Bytes := text "tr(musig(@0,@1)/**)"

def templateHash : Digest := .ofNat 0x4d1fdac1a90eed146aa6b3a14d6f99d0b8d7f26fe837880fe77ace31e71c1a78

def keysRoot : Digest := .ofNat 0xbbf55539c1c26ecc177390667e6523c57fa60e0109d07a5f483cc825e7042e41

def inputKeys : Digest := .ofNat 0xd5e6bc6c4dc3281fe8608baa0e70d24cc52059c61fb5a96b97fe909b7a4ed861

def values : Digest := .ofNat 0x1285f4c5e0941ab7b9639a2952fcc1644b7e9ee71c65132342d7e2a3baff724e

def inputs : Digest := .ofNat 0x72816a1e1c9210b8b51b717c957853c8e5b97988f3bc534b94cdf17dc9477194

def known : KnownData where
  trees := payments ++ [(keysRoot, [Vault.keyInfo, TwoKeys.cosigner]),
    (inputKeys, [[0x01], [0x0e], [0x0f], 0x16 :: aggregatePubkey.drop 1]),
    (values, inputValues 1000 (0x51 :: 0x20 :: outputKey) 0 ++ [beBytes 13 0x00b4600dec0000000000000000]),
    (inputs, [mapElement 4 inputKeys values])]
  preimages := [(policyId, serializedPolicy template templateHash 2 keysRoot), (templateHash, template)]

def device : Device (List Bool) :=
  { Vault.device crypto payments with
    env := .known crypto.sha256 known
    musigKeyAgg := fun _ => aggregatePubkey }

/-- Sign for one input of 1000, which is the wallet's and has no nonces; the user accepts. -/
def withoutNonces : SigningAttempt (List Bool) where
  protocolVersion := 1
  raw := request 1 inputs policyId
  outside := [true]

def psbtSessionId : Digest := .ofNat 0x9975a7560dbdc988857ffdd8633af5e0a1586aa60eed684bbb2eecb0e9b19bd4

/-- The input is found to be the wallet's, and the run ends with `SW_INCORRECT_DATA`. -/
def events : List Event := [.policyRead (text "Vault") template, .inputAmount 1000, .classified 0 true,
    .sighashAccepted 0 none, .outputAmount 900, .outputRead ⟨900, .ok recipient, false, 0⟩,
    .outputsHashed (leBytes 8 900 ++ 22 :: recipient),
    .shown (.validateTransactionSimplified (text "Vault") 900 (some address) noWarnings 100) noWarnings
      true, .statusWord 0x6A80 none]

end Cosigned

open Cosigned in
/-- The first run refuses the input instead of yielding a nonce for it. -/
theorem not_musigRounds_complete : (withoutNonces.finalWorld device .empty).trace = events ∧
    (withoutNonces.run device .empty).yielded = [] ∧
    ¬MusigCompletes device .empty withoutNonces withoutNonces psbtSessionId [0] := by
  have hrun : ((withoutNonces.finalWorld device .empty).trace,
      (withoutNonces.run device .empty).yielded) = (events, []) := by decide +kernel
  obtain ⟨htrace, hyielded⟩ := Prod.mk.inj hrun
  refine ⟨htrace, hyielded, ?_⟩
  intro h
  obtain ⟨response, hmem, -⟩ := h.pubnonces 0 List.mem_cons_self
  rw [hyielded] at hmem
  cases hmem

end LedgerBabylon
