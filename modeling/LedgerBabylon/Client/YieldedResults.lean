import LedgerBabylon.Client.Streams
import LedgerBabylon.Handler.SignPsbt.MusigRounds

/-!
# Results of signing on both sides of the wire

The device yields signatures and the data of MuSig2 rounds while it signs. Plain signatures start with
the index of the input; MuSig2 data have a tag in its place. The Python client decodes all three kinds,
the Rust client only knows signatures.
-/

namespace LedgerBabylon

open Endian List

variable {tapleafHash : Option Bytes} {input : Nat} {pubkey : Bytes}

inductive SignPsbtResult where
  | signature (pubkey : Bytes) (tapleafHash : Option Bytes) (sig : Bytes)
  | musigPubNonce (participantPubkey aggregatePubkey : Bytes) (tapleafHash : Option Bytes) (pubnonce : Bytes)
  | musigPartialSignature (participantPubkey aggregatePubkey : Bytes)
      (tapleafHash : Option Bytes) (partialSignature : Bytes)
  deriving DecidableEq, Repr

def yieldSignatureResponse (input : Nat) (pubkey : Bytes) (tapleafHash : Option Bytes)
    (sig : Bytes) : Bytes :=
  let augmPubkey := pubkey ++ tapleafHash.getD []
  CCMD_YIELD :: varintWrite input ++ UInt8.ofNat augmPubkey.length :: augmPubkey ++ sig

def yieldMusigDataResponse (input : Nat) (data : Bytes) (tag : Nat)
    (participantPk aggregatePubkey : Bytes) (tapleafHash : Option Bytes) : Bytes :=
  CCMD_YIELD :: varintWrite tag ++ varintWrite input ++ data ++ participantPk ++ aggregatePubkey ++
    tapleafHash.getD []

def SignPsbtResult.response (input : Nat) : SignPsbtResult → Bytes
  | .signature pubkey tapleafHash sig => yieldSignatureResponse input pubkey tapleafHash sig
  | .musigPubNonce participantPubkey aggregatePubkey tapleafHash pubnonce =>
    yieldMusigDataResponse input pubnonce yieldMusigPubnonceTag participantPubkey aggregatePubkey tapleafHash
  | .musigPartialSignature participantPubkey aggregatePubkey tapleafHash partialSignature =>
    yieldMusigDataResponse input partialSignature yieldMusigPartialSignatureTag participantPubkey
      aggregatePubkey tapleafHash

section

variable {σ : Type} (dev : Device σ) (g : GlobalState) (sig : Signature)

theorem yieldSignature_eq (hversion : g.protocolVersion = 1) (pubkey : Bytes)
    (tapleafHash : Option Bytes) (bytes : Bytes) :
    yieldSignature dev g sig pubkey tapleafHash bytes = (do
      record (.signed sig)
      let continued ← fetch dev
        (call (dev.env.yield ((SignPsbtResult.signature pubkey tapleafHash bytes).response sig.input)))
      fetch dev (okOr SW_BAD_STATE continued)) := by
  simp only [yieldSignature, hversion, Nat.le_refl, if_true, SignPsbtResult.response,
    yieldSignatureResponse, cons_append]

theorem yieldMusigPartialSignature_eq (hversion : g.protocolVersion = 1)
    (psig participantPk aggregatePubkey : Bytes) (tapleafHash : Option Bytes) :
    yieldMusigPartialSignature dev g sig psig participantPk aggregatePubkey tapleafHash = (do
      record (.signed sig)
      let continued ← fetch dev (call (dev.env.yield
        ((SignPsbtResult.musigPartialSignature participantPk aggregatePubkey tapleafHash psig).response
          sig.input)))
      fetch dev (okOr SW_BAD_STATE continued)) := by
  simp only [yieldMusigPartialSignature, hversion, Nat.one_ne_zero, if_false, SignPsbtResult.response,
    yieldMusigDataResponse]

end

/-! ### The clients

Both store a yielded response without its first byte. -/

def readTapleafHash (s : Bytes) : Option Bytes := if s.length = 0 then none else some s

/-- The data of a MuSig2 result after its tag. Reading stops at the end of the input. -/
def readMusigData (dataLen : Nat) (result : Bytes → Bytes → Option Bytes → Bytes → SignPsbtResult)
    (s : Bytes) : Option (Nat × SignPsbtResult) := do
  let (inputIndex, s) ← readVarint s
  let (data, s) := (s.take dataLen, s.drop dataLen)
  let (participantPk, s) := (s.take 33, s.drop 33)
  let (aggregatePubkey, s) := (s.take 33, s.drop 33)
  return (inputIndex, result participantPk aggregatePubkey (readTapleafHash s) data)

def makePartialSignature (pubkeyAugm signature : Bytes) : Option SignPsbtResult :=
  if pubkeyAugm.length = 64 then
    some (.signature (pubkeyAugm.take 32) (some (pubkeyAugm.drop 32)) signature)
  else if pubkeyAugm.length ≠ 32 ∧ pubkeyAugm.length ≠ 33 then none
  else some (.signature pubkeyAugm none signature)

def decodeSignpsbtYieldedValue (res : Bytes) : Option (Nat × SignPsbtResult) := do
  let (inputIndexOrTag, s) ← readVarint res
  if inputIndexOrTag = yieldMusigPubnonceTag then readMusigData 66 .musigPubNonce s
  else if inputIndexOrTag = yieldMusigPartialSignatureTag then readMusigData 32 .musigPartialSignature s
  else
    let (pubkeyAugmLen, s) ← readExact 1 s
    let n := leNat pubkeyAugmLen
    let result ← makePartialSignature (s.take n) (s.drop n)
    return (inputIndexOrTag, result)

structure RustParsers where
  xOnlyPublicKey : Bytes → Bool
  publicKey : Bytes → Bool
  taprootSignature : Bytes → Bool
  ecdsaSignature : Bytes → Bool

def partialSignatureFromSlice (parsers : RustParsers) (slice : Bytes) : Option SignPsbtResult :=
  match slice with
  | [] => none
  | keyAugmentByte :: rest =>
    let n := keyAugmentByte.toNat
    let sig := rest.drop n
    if slice.length ≤ n then none
    else if n = 64 then
      if parsers.xOnlyPublicKey (rest.take 32) && parsers.taprootSignature sig then
        some (.signature (rest.take 32) (some ((rest.drop 32).take 32)) sig)
      else none
    else if n = 32 then
      if parsers.xOnlyPublicKey (rest.take 32) && parsers.taprootSignature sig then
        some (.signature (rest.take 32) none sig)
      else none
    else if parsers.publicKey (rest.take n) && parsers.ecdsaSignature sig then
      some (.signature (rest.take n) none sig)
    else none

def decodeYielded (varInt : VarInt) (parsers : RustParsers) (result : Bytes) : Option (Nat × SignPsbtResult) :=
  if result.length ≤ 1 then none
  else do
    let (inputIndex, rest) ← varInt.decode result
    let signature ← partialSignatureFromSlice parsers rest
    return (inputIndex, signature)

def SignPsbtResult.WellFormed : SignPsbtResult → Prop
  | .signature pubkey tapleafHash _ =>
    pubkey.length = 33 ∧ tapleafHash = none ∨ pubkey.length = 32 ∧ ∀ leaf ∈ tapleafHash, leaf.length = 32
  | .musigPubNonce participantPubkey aggregatePubkey tapleafHash pubnonce =>
    participantPubkey.length = 33 ∧ aggregatePubkey.length = 33 ∧ pubnonce.length = 66 ∧
      ∀ leaf ∈ tapleafHash, leaf.length = 32
  | .musigPartialSignature participantPubkey aggregatePubkey tapleafHash partialSignature =>
    participantPubkey.length = 33 ∧ aggregatePubkey.length = 33 ∧ partialSignature.length = 32 ∧
      ∀ leaf ∈ tapleafHash, leaf.length = 32

/-- A plain signature with a key and a signature that the Rust libraries can read. -/
def SignPsbtResult.IsReadableSignature (parsers : RustParsers) : SignPsbtResult → Prop
  | .signature pubkey _ sig =>
    if pubkey.length = 32 then parsers.xOnlyPublicKey pubkey ∧ parsers.taprootSignature sig
    else parsers.publicKey pubkey ∧ parsers.ecdsaSignature sig
  | _ => False

theorem readTapleafHash_getD (h : ∀ leaf ∈ tapleafHash, leaf.length = 32) :
    readTapleafHash (tapleafHash.getD []) = tapleafHash := by
  cases tapleafHash with
  | none => rfl
  | some leaf =>
    have hlen : leaf.length = 32 := h leaf rfl
    rw [Option.getD_some, readTapleafHash, if_neg (by omega)]

theorem readMusigData_append (hinput : input < 2 ^ 64) {dataLen : Nat}
    (result : Bytes → Bytes → Option Bytes → Bytes → SignPsbtResult)
    {data participantPk aggregatePubkey : Bytes}
    (hdata : data.length = dataLen) (hparticipant : participantPk.length = 33)
    (haggregate : aggregatePubkey.length = 33) (hleaf : ∀ leaf ∈ tapleafHash, leaf.length = 32) :
    readMusigData dataLen result
        (varintWrite input ++ data ++ participantPk ++ aggregatePubkey ++ tapleafHash.getD []) =
      some (input, result participantPk aggregatePubkey tapleafHash data) := by
  simp only [readMusigData, append_assoc, readVarint_varintWrite hinput, Option.bind_eq_bind,
    Option.bind_some, take_left' hdata, drop_left' hdata, take_left' hparticipant,
    drop_left' hparticipant, take_left' haggregate, drop_left' haggregate,
    readTapleafHash_getD hleaf]
  rfl

theorem length_augmPubkey {sig : Bytes} (h : (SignPsbtResult.signature pubkey tapleafHash sig).WellFormed) :
    (pubkey ++ tapleafHash.getD []).length < 256 := by
  rcases h with ⟨hlen, rfl⟩ | ⟨hlen, hleaf⟩
  · simp [hlen]
  · cases tapleafHash with
    | none => simp [hlen]
    | some leaf => simp [hlen, hleaf leaf rfl]

theorem makePartialSignature_augmPubkey
    {sig : Bytes} (h : (SignPsbtResult.signature pubkey tapleafHash sig).WellFormed) :
    makePartialSignature (pubkey ++ tapleafHash.getD []) sig = some (.signature pubkey tapleafHash sig) := by
  unfold makePartialSignature
  rcases h with ⟨hlen, rfl⟩ | ⟨hlen, hleaf⟩
  · simp [hlen]
  · cases tapleafHash with
    | none => simp [hlen]
    | some leaf =>
      have hleaf : leaf.length = 32 := hleaf leaf rfl
      simp [hlen, hleaf, take_left' hlen, drop_left' hlen]

theorem decodeSignpsbtYieldedValue_response (hinput : input < 2 ^ 64)
    {result : SignPsbtResult} (h : result.WellFormed)
    (htag : ∀ pubkey tapleafHash sig, result = .signature pubkey tapleafHash sig →
      input ≠ yieldMusigPubnonceTag ∧ input ≠ yieldMusigPartialSignatureTag) :
    decodeSignpsbtYieldedValue (result.response input).tail = some (input, result) := by
  cases result with
  | signature pubkey tapleafHash sig =>
    obtain ⟨hpubnonce, hsignature⟩ := htag pubkey tapleafHash sig rfl
    have hlen := length_augmPubkey h
    have hbyte : leNat [UInt8.ofNat (pubkey ++ tapleafHash.getD []).length] =
        (pubkey ++ tapleafHash.getD []).length := by
      rw [leNat, leNat, UInt8.toNat_ofNat', Nat.mod_eq_of_lt hlen]
      omega
    have hread := readExact_append (n := 1) (a := [UInt8.ofNat (pubkey ++ tapleafHash.getD []).length]) rfl
      (pubkey ++ tapleafHash.getD [] ++ sig)
    rw [singleton_append] at hread
    simp only [SignPsbtResult.response, yieldSignatureResponse, cons_append, tail_cons,
      append_assoc, decodeSignpsbtYieldedValue, readVarint_varintWrite hinput,
      Option.bind_eq_bind, Option.bind_some, if_neg hpubnonce, if_neg hsignature] at hread ⊢
    rw [hread, Option.bind_some, hbyte, ← append_assoc, take_left, drop_left,
      makePartialSignature_augmPubkey h]
    rfl
  | musigPubNonce participantPubkey aggregatePubkey tapleafHash pubnonce =>
    obtain ⟨hparticipant, haggregate, hdata, hleaf⟩ := h
    have hmusig := readMusigData_append hinput .musigPubNonce hdata hparticipant haggregate hleaf
    have hread : readVarint (varintWrite yieldMusigPubnonceTag ++ (varintWrite input ++ pubnonce ++
        participantPubkey ++ aggregatePubkey ++ tapleafHash.getD [])) = _ :=
      readVarint_varintWrite (by decide) _
    simp only [append_assoc] at hmusig hread
    simp only [SignPsbtResult.response, yieldMusigDataResponse, cons_append, tail_cons,
      append_assoc, decodeSignpsbtYieldedValue, hread, Option.bind_eq_bind, Option.bind_some,
      if_true, hmusig]
  | musigPartialSignature participantPubkey aggregatePubkey tapleafHash partialSignature =>
    obtain ⟨hparticipant, haggregate, hdata, hleaf⟩ := h
    have hmusig := readMusigData_append hinput .musigPartialSignature hdata hparticipant haggregate hleaf
    have hread : readVarint (varintWrite yieldMusigPartialSignatureTag ++ (varintWrite input ++
        partialSignature ++ participantPubkey ++ aggregatePubkey ++ tapleafHash.getD [])) = _ :=
      readVarint_varintWrite (by decide) _
    have hne : yieldMusigPartialSignatureTag ≠ yieldMusigPubnonceTag := by decide
    simp only [append_assoc] at hmusig hread
    simp only [SignPsbtResult.response, yieldMusigDataResponse, cons_append, tail_cons,
      append_assoc, decodeSignpsbtYieldedValue, hread, Option.bind_eq_bind, Option.bind_some,
      if_neg hne, if_true, hmusig]

theorem decodeSignpsbtYieldedValue_tag
    (h : input = yieldMusigPubnonceTag ∨ input = yieldMusigPartialSignatureTag) (rest : Bytes)
    (index : Nat) (pubkey : Bytes) (tapleafHash : Option Bytes) (sig : Bytes) :
    decodeSignpsbtYieldedValue (varintWrite input ++ rest) ≠
      some (index, .signature pubkey tapleafHash sig) := by
  have hlt : input < 2 ^ 64 := by
    rcases h with rfl | rfl <;> decide
  have hne : yieldMusigPartialSignatureTag ≠ yieldMusigPubnonceTag := by decide
  simp only [decodeSignpsbtYieldedValue, readVarint_varintWrite hlt, Option.bind_eq_bind, Option.bind_some]
  rcases h with rfl | rfl
  · rw [if_pos rfl, readMusigData]
    cases readVarint rest <;> simp
  · rw [if_neg hne, if_pos rfl, readMusigData]
    cases readVarint rest <;> simp

theorem partialSignatureFromSlice_signature {parsers : RustParsers} {slice : Bytes}
    {result : SignPsbtResult} (h : partialSignatureFromSlice parsers slice = some result) :
    ∃ pubkey tapleafHash sig, result = .signature pubkey tapleafHash sig := by
  cases slice with
  | nil => exact absurd h (by simp [partialSignatureFromSlice])
  | cons b rest =>
    simp only [partialSignatureFromSlice] at h
    split_ifs at h <;> cases h <;> exact ⟨_, _, _, rfl⟩

theorem partialSignatureFromSlice_augmPubkey (parsers : RustParsers) {sig : Bytes}
    (h : (SignPsbtResult.signature pubkey tapleafHash sig).WellFormed) :
    partialSignatureFromSlice parsers (UInt8.ofNat (pubkey ++ tapleafHash.getD []).length ::
        (pubkey ++ tapleafHash.getD [] ++ sig)) = some (.signature pubkey tapleafHash sig) ↔
      (SignPsbtResult.signature pubkey tapleafHash sig).IsReadableSignature parsers := by
  have hbyte : (UInt8.ofNat (pubkey ++ tapleafHash.getD []).length).toNat =
      (pubkey ++ tapleafHash.getD []).length := by
    rw [UInt8.toNat_ofNat', Nat.mod_eq_of_lt (length_augmPubkey h)]
  have hlt : ¬(UInt8.ofNat (pubkey ++ tapleafHash.getD []).length ::
      (pubkey ++ tapleafHash.getD [] ++ sig)).length ≤ (pubkey ++ tapleafHash.getD []).length := by
    rw [length_cons, length_append]
    omega
  simp only [partialSignatureFromSlice, hbyte, if_neg hlt, SignPsbtResult.IsReadableSignature,
    drop_left, take_left]
  rcases h with ⟨hlen, rfl⟩ | ⟨hlen, hleaf⟩
  · simp [hlen]
  · cases tapleafHash with
    | none => simp [hlen, take_left' hlen]
    | some leaf =>
      have hleaf : leaf.length = 32 := hleaf leaf rfl
      simp [hlen, hleaf, take_left' hlen, drop_left' hlen, take_left' hleaf]

theorem decodeYielded_signature_iff (varInt : VarInt) (parsers : RustParsers) (hinput : input < 2 ^ 64) {sig : Bytes}
    (h : (SignPsbtResult.signature pubkey tapleafHash sig).WellFormed) :
    decodeYielded varInt parsers ((SignPsbtResult.signature pubkey tapleafHash sig).response input).tail =
        some (input, .signature pubkey tapleafHash sig) ↔
      (SignPsbtResult.signature pubkey tapleafHash sig).IsReadableSignature parsers := by
  have hlt : ¬(varintWrite input ++ UInt8.ofNat (pubkey ++ tapleafHash.getD []).length ::
      (pubkey ++ tapleafHash.getD [] ++ sig)).length ≤ 1 := by
    have hpos : 0 < pubkey.length := by
      rcases h with ⟨hlen, -⟩ | ⟨hlen, -⟩ <;> omega
    simp only [length_append, length_cons]
    omega
  have hslice := partialSignatureFromSlice_augmPubkey parsers h
  rw [← hslice]
  simp only [SignPsbtResult.response, yieldSignatureResponse, cons_append, tail_cons, append_assoc] at hlt ⊢
  simp only [decodeYielded, if_neg hlt, varInt.decode_varintWrite hinput, Option.bind_eq_bind,
    Option.bind_some, Option.bind_eq_some_iff, Option.pure_def, Option.some.injEq,
    Prod.mk.injEq, true_and, exists_eq_right]

/-- Both clients give back what the device encoded exactly for the plain signatures with an index that
is not a tag. -/
theorem decoded_by_both_iff (varInt : VarInt) (parsers : RustParsers) {input : Nat} (hinput : input < 2 ^ 32)
    {result : SignPsbtResult} (h : result.WellFormed) :
    (decodeSignpsbtYieldedValue (result.response input).tail = some (input, result) ∧
        decodeYielded varInt parsers (result.response input).tail = some (input, result)) ↔
      result.IsReadableSignature parsers ∧ input ≠ yieldMusigPubnonceTag ∧
        input ≠ yieldMusigPartialSignatureTag := by
  have hlt : input < 2 ^ 64 := by omega
  constructor
  · rintro ⟨hpython, hrust⟩
    obtain ⟨pubkey, tapleafHash, sig, rfl⟩ :
        ∃ pubkey tapleafHash sig, result = .signature pubkey tapleafHash sig := by
      rw [decodeYielded] at hrust
      split_ifs at hrust
      simp only [Option.bind_eq_bind, Option.bind_eq_some_iff, Option.pure_def, Option.some.injEq,
        Prod.mk.injEq] at hrust
      obtain ⟨read, -, decoded, hslice, -, rfl⟩ := hrust
      exact partialSignatureFromSlice_signature hslice
    refine ⟨(decodeYielded_signature_iff varInt parsers hlt h).mp hrust, ?_⟩
    simp only [SignPsbtResult.response, yieldSignatureResponse, cons_append, tail_cons,
      append_assoc] at hpython
    rw [← not_or]
    intro htag
    exact decodeSignpsbtYieldedValue_tag htag _ _ _ _ _ hpython
  · rintro ⟨hreadable, htags⟩
    refine ⟨decodeSignpsbtYieldedValue_response hlt h fun _ _ _ _ => htags, ?_⟩
    cases result with
    | signature pubkey tapleafHash sig => exact (decodeYielded_signature_iff varInt parsers hlt h).mpr hreadable
    | musigPubNonce _ _ _ _ => exact hreadable.elim
    | musigPartialSignature _ _ _ _ => exact hreadable.elim

namespace YieldedExample

def parsers : RustParsers where
  xOnlyPublicKey key := key.length = 32
  publicKey key := key.length = 33
  taprootSignature sig := sig.length = 64 ∨ sig.length = 65
  ecdsaSignature sig := 8 ≤ sig.length ∧ sig.length ≤ 73

def tapscriptSignature : SignPsbtResult :=
  .signature (replicate 32 2) (some (replicate 32 3)) (replicate 64 4)

def partialSig : SignPsbtResult :=
  .musigPartialSignature (2 :: replicate 32 2) (3 :: replicate 32 5) none (replicate 32 6)

end YieldedExample

open YieldedExample in
theorem decoded_by_both_tapscriptSignature :
    (decodeSignpsbtYieldedValue (tapscriptSignature.response 7).tail = some (7, tapscriptSignature) ∧
        decodeYielded .minimal parsers (tapscriptSignature.response 7).tail = some (7, tapscriptSignature)) ↔
      tapscriptSignature.IsReadableSignature parsers ∧ 7 ≠ yieldMusigPubnonceTag ∧
        7 ≠ yieldMusigPartialSignatureTag :=
  decoded_by_both_iff .minimal parsers (by decide) (.inr ⟨by decide, fun leaf h => by cases h; decide⟩)

open YieldedExample in
/-- The Rust client does not read a partial signature. -/
theorem partialSig_not_decoded : partialSig.WellFormed ∧
      ¬(decodeSignpsbtYieldedValue (partialSig.response 0).tail = some (0, partialSig) ∧
        decodeYielded .minimal parsers (partialSig.response 0).tail = some (0, partialSig)) := by
  refine ⟨⟨by decide, by decide, by decide, fun leaf h => by cases h⟩, ?_⟩
  decide +kernel

end LedgerBabylon
