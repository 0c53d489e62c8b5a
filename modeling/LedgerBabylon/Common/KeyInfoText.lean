import LedgerBabylon.Common.KeyInfoScanner

/-!
# The text of a key info

A key info is an optional origin in brackets, a key in base 58 and, in V1, a wildcard. The scanner
accepts this grammar and returns what the text denotes, up to four things: a ninth step of the origin
is written behind its array, so is the end of a key of 113 characters, a key that decodes to too few
bytes is used all the same, and a step of more than 32 bits is taken modulo `2 ^ 32`.
-/

namespace LedgerBabylon

open Endian Exec List

variable {raw key : Bytes} {origin : Option WrittenOrigin}

structure KeyInfoText (sha256 : Bytes → Digest) (version : Nat) (info : Bytes)
    (origin : Option WrittenOrigin) (key raw : Bytes) : Prop where
  known : version = 1 ∨ version = 2
  info_eq : info = originText origin ++ (key ++ wildcardText version)
  fingerprint : ∀ o ∈ origin, o.fingerprint.length = 4
  base58 : Base58 raw key
  length : raw.length = 82
  checksum : (sha256 (sha256 (raw.take 78)).bytes).bytes.take 4 = raw.drop 78

def denotedKeyInfo (version : Nat) (origin : Option WrittenOrigin) (raw : Bytes) : PolicyMapKeyInfo where
  masterKeyDerivation := origin.elim [] fun o => o.steps.map WrittenStep.number
  masterKeyFingerprint := origin.elim [0, 0, 0, 0] WrittenOrigin.fingerprint
  hasKeyOrigin := origin.isSome
  hasWildcard := version = 1
  extPubkey := .ofBytes (raw.take 78)

theorem base58_alphanumeric (h : Base58 raw key) : ∀ c ∈ key, isAlphanumeric c := by
  obtain ⟨zeroCount, digits, h⟩ := h
  intro c hc
  rw [h.text_eq, mem_map] at hc
  obtain ⟨d, hd, rfl⟩ := hc
  have hall : ∀ d < base58Alphabet.length, isAlphanumeric (base58Alphabet.getD d 0) := by
    decide +kernel
  exact hall d (h.all_lt d hd)

open KeyInfo

section

variable {sha256 : Bytes → Digest} {version : Nat} {info : Bytes}

theorem KeyInfoText.head_ne (h : KeyInfoText sha256 version info origin key raw) :
    (key ++ wildcardText version).head? ≠ some 0x5B := by
  intro hhead
  cases key with
  | nil =>
    have hwildcard : ∀ c ∈ (wildcardText version).head?, c = 0x2F := by
      unfold wildcardText
      split <;> simp [text]
    exact absurd (hwildcard _ hhead) (by decide)
  | cons c key =>
    obtain rfl : c = 0x5B := Option.some.inj hhead
    exact absurd (base58_alphanumeric h.base58 _ mem_cons_self) (by decide)

structure ParsesKeyInfo (sha256 : Bytes → Digest) (version : Nat) (info : Bytes)
    (origin : Option WrittenOrigin) (key raw : Bytes) : Prop
    extends KeyInfoText sha256 version info origin key raw where
  length_le : ∀ o ∈ origin, o.steps.length ≤ maxBip32PathSteps
  readable : ∀ o ∈ origin, ∀ step ∈ o.steps, step.Readable
  key_length : 111 ≤ key.length ∧ key.length ≤ 112

theorem ParsesKeyInfo.readsOrigin (h : ParsesKeyInfo sha256 version info origin key raw) :
    ReadsOrigin info origin (key ++ wildcardText version) := by
  exact ⟨h.info_eq, h.fingerprint, h.length_le, h.readable, fun _ => h.head_ne⟩

theorem endsWord_wildcardText (version : Nat) : EndsWord (wildcardText version) := by
  unfold wildcardText
  split
  · intro c hc
    obtain rfl : 0x2F = c := Option.some.inj hc
    decide
  · intro c hc
    cases hc

/-- What the scanner accepts and what it returns then. -/
theorem parsePolicyMapKeyInfo_eq_some_true_iff {out : PolicyMapKeyInfo} :
    parsePolicyMapKeyInfo sha256 version info = some (true, out) ↔ ∃ origin key raw,
      ParsesKeyInfo sha256 version info origin key raw ∧ out = denotedKeyInfo version origin raw := by
  have hparse : parsePolicyMapKeyInfo sha256 version info = some (true, out) ↔
      ∃ s', KeyInfo.parse sha256 version ⟨info, .zero, 0⟩ = .ok () s' ∧ s'.out = out := by
    rw [parsePolicyMapKeyInfo]
    cases KeyInfo.parse sha256 version ⟨info, .zero, 0⟩ with
    | ok u s' => simp
    | error e s' => cases e <;> simp
  rw [hparse]
  simp only [KeyInfo.parse, bind_ok_iff, KeyInfo.check_ok_iff, decide_eq_true_eq, fill_ok_iff]
  constructor
  · rintro ⟨s', ⟨_, _, ⟨hversion, rfl⟩, _, t, horigin, key, t1, hkey, _, _, ⟨⟨hlow, hhigh⟩, rfl⟩, pubkey, t2,
      hdecode, _, _, rfl, hwildcard⟩, rfl⟩
    obtain ⟨origin, hreads, ht⟩ := readKeyOriginIfAny_ok_iff.mp horigin
    obtain ⟨hinput, hword, -, -, ht1⟩ := readPubkeyString_ok_iff.mp hkey
    obtain ⟨rfl, raw, hbase58, hlen, hsum, rfl⟩ := (decodePubkey_ok_iff (by omega)
      (Nat.le_trans hhigh (by decide))).mp hdecode
    have hnone : t2.out.hasWildcard = false := by
      rw [ht1, ht]
      rfl
    obtain ⟨hrest, hs⟩ := (readWildcard_ok_iff hversion (by exact hnone)).mp hwildcard
    refine ⟨origin, key, raw, ⟨⟨hversion, ?_, hreads.fingerprint, hbase58, hlen, hsum⟩,
      hreads.length_le, hreads.readable, hlow, hhigh⟩, ?_⟩
    · rw [hreads.info_eq, hinput, show t2.input = _ from hrest]
    · rw [hs, ht1, ht]
      rfl
  · rintro ⟨origin, key, raw, h, rfl⟩
    have hreads := h.readsOrigin
    have hlow : 2 ≤ key.length := Nat.le_trans (by decide) h.key_length.1
    have hhigh : key.length ≤ maxDecInputSize := Nat.le_trans h.key_length.2 (by decide)
    let t := afterOrigin origin (wildcardText version)
    refine ⟨{ t with out := denotedKeyInfo version origin raw }, ⟨⟨⟩, _, ⟨h.known, rfl⟩, ⟨⟩,
      afterOrigin origin (key ++ wildcardText version), readKeyOriginIfAny_ok_iff.mpr ⟨origin, hreads, rfl⟩,
      key, t, readPubkeyString_ok_iff.mpr ⟨rfl, base58_alphanumeric h.base58, ?_, ?_, rfl⟩, ⟨⟩, t,
      ⟨h.key_length, rfl⟩, _, t, (decodePubkey_ok_iff hlow hhigh).mpr
        ⟨rfl, raw, h.base58, h.length, h.checksum, rfl⟩, ⟨⟩, _, rfl,
      (readWildcard_ok_iff h.known rfl).mpr ⟨rfl, rfl⟩⟩, rfl⟩
    · exact Nat.lt_of_le_of_lt h.key_length.2 (by decide)
    · exact endsWord_wildcardText version

def KeyTooLong (info : Bytes) : Prop := ∃ origin word rest, ReadsOrigin info origin (word ++ rest) ∧
    (∀ c ∈ word, isAlphanumeric c) ∧ word.length = maxSerializedPubkeyLength

def KeyTooShort (info : Bytes) : Prop :=
  ∃ origin word rest raw, ReadsOrigin info origin (word ++ rest) ∧ EndsWord rest ∧
    (111 ≤ word.length ∧ word.length ≤ 112) ∧ Base58 raw word ∧ raw.length < 82

theorem parsePolicyMapKeyInfo_eq_none_iff :
    parsePolicyMapKeyInfo sha256 version info = none ↔ (version = 1 ∨ version = 2) ∧
      (TooManySteps info ∨ KeyTooLong info ∨ KeyTooShort info) := by
  have hparse : parsePolicyMapKeyInfo sha256 version info = none ↔
      Undefined (KeyInfo.parse sha256 version) ⟨info, .zero, 0⟩ := by
    rw [parsePolicyMapKeyInfo, Undefined]
    cases KeyInfo.parse sha256 version ⟨info, .zero, 0⟩ with
    | ok u s' => simp
    | error e s' => cases e <;> simp
  rw [hparse]
  simp only [KeyInfo.parse, undefined_bind_iff, not_undefined_check, KeyInfo.check_ok_iff, false_or,
    decide_eq_true_eq, undefined_readPubkeyString_iff, not_undefined_fill, not_undefined_readWildcard,
    and_false, exists_false, or_false]
  constructor
  · rintro ⟨_, _, ⟨hversion, rfl⟩, h⟩
    refine ⟨hversion, ?_⟩
    rcases h with h | ⟨_, t, horigin, h⟩
    · exact .inl (undefined_readKeyOriginIfAny_iff.mp h)
    · obtain ⟨origin, hreads, -⟩ := readKeyOriginIfAny_ok_iff.mp horigin
      rcases h with ⟨word, rest, hinput, hword, hlen⟩ | ⟨word, t1, hkey, _, _, ⟨hlen, rfl⟩, h⟩
      · exact .inr (.inl ⟨origin, word, rest, hinput ▸ hreads, hword, hlen⟩)
      · obtain ⟨hinput, -, -, hends, -⟩ := readPubkeyString_ok_iff.mp hkey
        obtain ⟨raw, hbase58, hshort⟩ := (undefined_decodePubkey_iff (by omega)
          (Nat.le_trans hlen.2 (by decide))).mp h
        exact .inr (.inr ⟨origin, word, t1.input, raw, hinput ▸ hreads, hends, hlen, hbase58, hshort⟩)
  · rintro ⟨hversion, h⟩
    refine ⟨⟨⟩, _, ⟨hversion, rfl⟩, ?_⟩
    rcases h with h | ⟨origin, word, rest, hreads, hword, hlen⟩ |
      ⟨origin, word, rest, raw, hreads, hends, hlen, hbase58, hshort⟩
    · exact .inl (undefined_readKeyOriginIfAny_iff.mpr h)
    · exact .inr ⟨⟨⟩, afterOrigin origin (word ++ rest), readKeyOriginIfAny_ok_iff.mpr ⟨origin, hreads, rfl⟩,
        .inl ⟨word, rest, rfl, hword, hlen⟩⟩
    · refine .inr ⟨⟨⟩, afterOrigin origin (word ++ rest),
        readKeyOriginIfAny_ok_iff.mpr ⟨origin, hreads, rfl⟩, .inr ⟨word, afterOrigin origin rest,
        readPubkeyString_ok_iff.mpr ⟨rfl, base58_alphanumeric hbase58, ?_, hends, rfl⟩, ⟨⟩, _,
        ⟨hlen, rfl⟩, (undefined_decodePubkey_iff (by omega) ?_).mpr ⟨raw, hbase58, hshort⟩⟩⟩
      · exact Nat.lt_of_le_of_lt hlen.2 (by decide)
      · exact Nat.le_trans hlen.2 (by decide)

end

theorem stepsText_injective {steps steps' : List WrittenStep} {rest rest' : Bytes}
    (hsteps : ∀ step ∈ steps, IsDecimal step.digits) (hsteps' : ∀ step ∈ steps', IsDecimal step.digits)
    (h : steps.flatMap WrittenStep.text ++ 0x5D :: rest =
      steps'.flatMap WrittenStep.text ++ 0x5D :: rest') : steps = steps' := by
  induction steps generalizing steps' with
  | nil =>
    cases steps' with
    | nil => rfl
    | cons step' steps' => simp [WrittenStep.text] at h
  | cons step steps ih =>
    cases steps' with
    | nil => simp [WrittenStep.text] at h
    | cons step' steps' =>
      obtain ⟨digits, hardened⟩ := step
      obtain ⟨digits', hardened'⟩ := step'
      obtain ⟨hdecimal, hrest⟩ := forall_mem_cons.mp hsteps
      obtain ⟨hdecimal', hrest'⟩ := forall_mem_cons.mp hsteps'
      obtain ⟨hends, hmark⟩ := @ends_of_steps rest ⟨[], false⟩ steps rfl
      obtain ⟨hends', hmark'⟩ := @ends_of_steps rest' ⟨[], false⟩ steps' rfl
      have happend (hardened : Bool) {rest : Bytes} (hends : EndsNumber rest) :
          EndsNumber ((if hardened then [0x27] else []) ++ rest) := by
        cases hardened with
        | false => exact hends
        | true =>
          intro c hc
          obtain rfl : 0x27 = c := Option.some.inj hc
          decide
      have hbodies : digits ++ ((if hardened then [0x27] else []) ++
            (steps.flatMap WrittenStep.text ++ 0x5D :: rest)) =
          digits' ++ ((if hardened' then [0x27] else []) ++
            (steps'.flatMap WrittenStep.text ++ 0x5D :: rest')) := by
        simpa [WrittenStep.text, WrittenStep.body] using h
      obtain ⟨hdigits, hmarks⟩ := digits_injective hdecimal.all hdecimal'.all (happend _ hends)
        (happend _ hends') hbodies
      obtain rfl : digits = digits' := hdigits
      -- the mark of a hardened step cannot be the start of what follows
      cases hardened <;> cases hardened'
      · rw [ih hrest hrest' hmarks]
      · exact absurd (congrArg head? hmarks) hmark
      · exact absurd (congrArg head? hmarks).symm hmark'
      · rw [ih hrest hrest' (append_cancel_left hmarks)]

theorem originText_injective {origin' : Option WrittenOrigin} {rest rest' : Bytes}
    (horigin : ∀ o ∈ origin, o.fingerprint.length = 4 ∧ ∀ step ∈ o.steps, IsDecimal step.digits)
    (horigin' : ∀ o ∈ origin', o.fingerprint.length = 4 ∧ ∀ step ∈ o.steps, IsDecimal step.digits)
    (hrest : rest.head? ≠ some 0x5B) (hrest' : rest'.head? ≠ some 0x5B)
    (h : originText origin ++ rest = originText origin' ++ rest') : origin = origin' := by
  cases origin with
  | none =>
    cases origin' with
    | none => rfl
    | some o' => exact absurd (congrArg head? h) hrest
  | some o =>
    cases origin' with
    | none => exact absurd (congrArg head? h).symm hrest'
    | some o' =>
      obtain ⟨hfour, hsteps⟩ := horigin o rfl
      obtain ⟨hfour', hsteps'⟩ := horigin' o' rfl
      simp only [originText, WrittenOrigin.text, cons_append, append_assoc, cons.injEq, true_and] at h
      obtain ⟨hhex, h⟩ := append_inj h (by rw [length_hexText, length_hexText, hfour, hfour'])
      obtain ⟨fingerprint, steps⟩ := o
      obtain rfl : fingerprint = o'.fingerprint := hexText_injective hhex
      obtain rfl : steps = o'.steps := stepsText_injective hsteps hsteps' h
      rfl

section

variable (sha256 : Bytes → Digest) (version : Nat) (info : Bytes)

/-- The scanner stays within its arrays, accepts only texts of the grammar and returns what they denote.
-/
structure KeyInfoExact : Prop where
  defined : parsePolicyMapKeyInfo sha256 version info ≠ none
  denoted {out : PolicyMapKeyInfo} (h : parsePolicyMapKeyInfo sha256 version info = some (true, out)) :
    ∃ origin key raw, KeyInfoText sha256 version info origin key raw ∧
      (∀ o ∈ origin, o.steps.length ≤ maxBip32PathSteps ∧ ∀ step ∈ o.steps, step.Exact) ∧
      out = denotedKeyInfo version origin raw

def StepTooLarge : Prop := ∃ origin key raw, ParsesKeyInfo sha256 version info origin key raw ∧
    ∃ o ∈ origin, ∃ step ∈ o.steps, 2 ^ 32 ≤ decimalValue step.digits

def KeyInfoHazard : Prop := (version = 1 ∨ version = 2) ∧
    (TooManySteps info ∨ KeyTooLong info ∨ KeyTooShort info ∨ StepTooLarge sha256 version info)

variable {sha256 version info}

theorem WrittenStep.Readable.exact_of_lt {step : WrittenStep} (h : step.Readable)
    (hlt : decimalValue step.digits < 2 ^ 32) : step.Exact :=
  ⟨h.decimal, Nat.mod_eq_of_lt hlt ▸ h.lt⟩

/-- Key info parsing is exact but for texts with a ninth step in the origin, with a key of 113
characters, with a key of 111 or 112 characters for fewer than 82 bytes, and with a step of more than 32
bits that goes unnoticed. -/
theorem keyInfoExact_iff : KeyInfoExact sha256 version info ↔ ¬KeyInfoHazard sha256 version info := by
  constructor
  · rintro hexact ⟨hversion, hsteps | hlong | hshort | hlarge⟩
    · exact hexact.defined (parsePolicyMapKeyInfo_eq_none_iff.mpr ⟨hversion, .inl hsteps⟩)
    · exact hexact.defined (parsePolicyMapKeyInfo_eq_none_iff.mpr ⟨hversion, .inr (.inl hlong)⟩)
    · exact hexact.defined (parsePolicyMapKeyInfo_eq_none_iff.mpr ⟨hversion, .inr (.inr hshort)⟩)
    · obtain ⟨origin, key, raw, hparses, o, ho, step, hstep, hlarge⟩ := hlarge
      have hparse := parsePolicyMapKeyInfo_eq_some_true_iff.mpr ⟨origin, key, raw, hparses, rfl⟩
      obtain ⟨origin', key', raw', htext, hall, -⟩ := hexact.denoted hparse
      -- the text has one origin only
      have horigin : origin = origin' := by
        apply originText_injective _ _ hparses.head_ne htext.head_ne
          (hparses.info_eq.symm.trans htext.info_eq)
        · intro o ho
          exact ⟨hparses.fingerprint o ho, fun step hstep => (hparses.readable o ho step hstep).decimal⟩
        · intro o ho
          exact ⟨htext.fingerprint o ho, fun step hstep => ((hall o ho).2 step hstep).decimal⟩
      have hlt := ((hall o (horigin ▸ ho)).2 step hstep).lt
      omega
  · intro hhazard
    refine ⟨fun hnone => ?_, fun {out} hparse => ?_⟩
    · obtain ⟨hversion, hsteps | hlong | hshort⟩ := parsePolicyMapKeyInfo_eq_none_iff.mp hnone
      · exact hhazard ⟨hversion, .inl hsteps⟩
      · exact hhazard ⟨hversion, .inr (.inl hlong)⟩
      · exact hhazard ⟨hversion, .inr (.inr (.inl hshort))⟩
    · obtain ⟨origin, key, raw, hparses, rfl⟩ := parsePolicyMapKeyInfo_eq_some_true_iff.mp hparse
      refine ⟨origin, key, raw, hparses.toKeyInfoText, fun o ho => ⟨hparses.length_le o ho, ?_⟩, rfl⟩
      intro step hstep
      apply (hparses.readable o ho step hstep).exact_of_lt
      by_contra hlarge
      exact hhazard ⟨hparses.known, .inr (.inr (.inr
        ⟨origin, key, raw, hparses, o, ho, step, hstep, Nat.le_of_not_lt hlarge⟩))⟩

end

/-- The ninth step is written behind the array. -/
theorem not_keyInfoExact_nineSteps :
    ¬KeyInfoExact (fun _ => ⟨List.replicate 32 0, rfl⟩) 2 (text "[00000000/0/0/0/0/0/0/0/0/0") := by
  intro h
  exact h.defined (by decide +kernel)

end LedgerBabylon
