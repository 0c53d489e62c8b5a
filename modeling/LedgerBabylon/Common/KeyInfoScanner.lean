import LedgerBabylon.Common.Base58Decoding
import LedgerBabylon.Common.WrittenNumbers

/-!
# Scanning a key info

The grammar of key infos, and for each part of the scanner the texts that it accepts and those on which
its behaviour is undefined.
-/

namespace LedgerBabylon

open Endian Exec List

variable {s s' : KeyInfoState} {u : Unit} {α : Type} {rest info : Bytes} {room : Nat}

structure WrittenStep where
  digits : Bytes
  hardened : Bool

namespace WrittenStep

def body (step : WrittenStep) : Bytes := step.digits ++ if step.hardened then [0x27] else []

def text (step : WrittenStep) : Bytes := 0x2F :: step.body

def number (step : WrittenStep) : UInt32 :=
  if step.hardened then UInt32.ofNat (decimalValue step.digits) ||| bip32FirstHardenedChild
  else UInt32.ofNat (decimalValue step.digits)

structure Exact (step : WrittenStep) : Prop where
  decimal : IsDecimal step.digits
  lt : decimalValue step.digits < 2 ^ 31

structure Readable (step : WrittenStep) : Prop where
  decimal : IsDecimal step.digits
  increasing : ¬Decreases 32 step.digits
  lt : decimalValue step.digits % 2 ^ 32 < 2 ^ 31

def Ends (step : WrittenStep) (rest : Bytes) : Prop :=
  step.hardened = false → EndsNumber rest ∧ rest.head? ≠ some 0x27

end WrittenStep

structure WrittenOrigin where
  fingerprint : Bytes
  steps : List WrittenStep

def WrittenOrigin.text (origin : WrittenOrigin) : Bytes :=
  0x5B :: hexText origin.fingerprint ++ origin.steps.flatMap WrittenStep.text ++ [0x5D]

def originText : Option WrittenOrigin → Bytes
  | none => []
  | some origin => origin.text

def wildcardText (version : Nat) : Bytes := if version = 1 then text "/**" else []

namespace KeyInfo

variable {x : KeyInfoParse α} {a : α} {expected : UInt8} {step : WrittenStep}
  {steps : List WrittenStep} {input : Bytes}

@[simp] theorem check_ok_iff {b : Bool} : check b s = .ok u s' ↔ b ∧ s = s' := by
  cases b <;> simp [check]

@[simp] theorem fill_ok_iff {f : PolicyMapKeyInfo → PolicyMapKeyInfo} :
    fill f s = .ok u s' ↔ { s with out := f s.out } = s' := by
  rw [fill, modify_ok_iff]

theorem scan_ok_iff {x : Parse α} : scan x s = .ok a s' ↔
      ∃ p, x ⟨s.input, 0, 0⟩ = .ok a p ∧ s' = { s with input := p.input } := by
  rw [scan]
  cases x ⟨s.input, 0, 0⟩ with
  | ok b p => simp [eq_comm]
  | error e p => simp

def Undefined {α : Type} (x : KeyInfoParse α) (s : KeyInfoState) : Prop :=
  ∃ s', x s = .error .undefinedBehaviour s'

theorem undefined_congr {y : KeyInfoParse α} {t : KeyInfoState} (h : x s = y t) :
    Undefined x s ↔ Undefined y t := by
  rw [Undefined, h, Undefined]

theorem undefined_bind_iff {β : Type} {f : α → KeyInfoParse β} :
    Undefined (x >>= f) s ↔ Undefined x s ∨ ∃ a s', x s = .ok a s' ∧ Undefined (f a) s' := by
  constructor
  · rintro ⟨s'', h⟩
    rcases bind_error_iff.mp h with hx | ⟨a, s', hx, hf⟩
    · exact .inl ⟨s'', hx⟩
    · exact .inr ⟨a, s', hx, s'', hf⟩
  · rintro (⟨s'', hx⟩ | ⟨a, s', hx, s'', hf⟩)
    · exact ⟨s'', bind_error_iff.mpr (.inl hx)⟩
    · exact ⟨s'', bind_error_iff.mpr (.inr ⟨a, s', hx, hf⟩)⟩

@[simp] theorem not_undefined_pure (a : α) (s : KeyInfoState) : ¬Undefined (pure a) s := by
  rintro ⟨s', h⟩
  cases h

@[simp] theorem not_undefined_get (s : KeyInfoState) : ¬Undefined get s := by
  rintro ⟨s', h⟩
  cases h

@[simp] theorem not_undefined_modify (f : KeyInfoState → KeyInfoState) (s : KeyInfoState) :
    ¬Undefined (modify f) s := by
  rintro ⟨s', h⟩
  cases h

@[simp] theorem not_undefined_check (b : Bool) (s : KeyInfoState) : ¬Undefined (check b) s := by
  rintro ⟨s', h⟩
  cases b <;> cases h

@[simp] theorem not_undefined_fill (f : PolicyMapKeyInfo → PolicyMapKeyInfo) (s : KeyInfoState) :
    ¬Undefined (fill f) s := by
  rintro ⟨s', h⟩
  cases h

@[simp] theorem not_undefined_scan (x : Parse α) (s : KeyInfoState) : ¬Undefined (scan x) s := by
  rintro ⟨s', h⟩
  rw [scan] at h
  cases hx : x ⟨s.input, 0, 0⟩ <;> rw [hx] at h <;> cases h

@[simp] theorem undefined_throw (s : KeyInfoState) :
    Undefined (throw .undefinedBehaviour : KeyInfoParse Unit) s := ⟨s, rfl⟩

theorem scan_consumeCharacter_ok_iff {found : Bool} : scan (consumeCharacter expected) s = .ok found s' ↔
      (found ∧ s.input = expected :: s'.input ∧ s' = { s with input := s'.input }) ∨
        (found = false ∧ s.input.head? ≠ some expected ∧ s' = s) := by
  simp only [scan_ok_iff, consumeCharacter, consumeCharacters_ok_iff, singleton_prefix_iff, singleton_append]
  constructor
  · rintro ⟨p, ⟨rfl, hinput, -⟩ | ⟨rfl, hhead, rfl⟩, rfl⟩
    · exact .inl ⟨rfl, hinput, rfl⟩
    · exact .inr ⟨rfl, hhead, rfl⟩
  · rintro (⟨rfl, hinput, hs⟩ | ⟨rfl, hhead, rfl⟩)
    · exact ⟨⟨s'.input, 0, 0⟩, .inl ⟨rfl, hinput, rfl⟩, hs⟩
    · exact ⟨⟨s'.input, 0, 0⟩, .inr ⟨rfl, hhead, rfl⟩, rfl⟩

theorem scan_expectCharacter_ok_iff : scan (expectCharacter expected) s = .ok u s' ↔
      s.input = expected :: s'.input ∧ s' = { s with input := s'.input } := by
  simp only [scan_ok_iff, expectCharacter_ok_iff]
  constructor
  · rintro ⟨p, ⟨hinput, -⟩, rfl⟩
    exact ⟨hinput, rfl⟩
  · rintro ⟨hinput, hs⟩
    exact ⟨⟨s'.input, 0, 0⟩, ⟨hinput, rfl⟩, hs⟩

theorem readFingerprintByte_ok_iff {i : Nat} :
    readFingerprintByte i s = .ok u s' ↔ ∃ b, s.input = hexText [b] ++ s'.input ∧
      s' = { s with input := s'.input, out := { s.out with
        masterKeyFingerprint := s.out.masterKeyFingerprint.set i b } } := by
  simp only [readFingerprintByte, bind_ok_iff, scan_ok_iff, bufferReadHexHash_ok_iff, fill_ok_iff]
  constructor
  · rintro ⟨bytes, _, ⟨p, ⟨hlen, hinput, -⟩, rfl⟩, rfl⟩
    obtain ⟨b, rfl⟩ := length_eq_one_iff.mp hlen
    exact ⟨b, hinput, rfl⟩
  · rintro ⟨b, hinput, hs⟩
    exact ⟨[b], _, ⟨⟨s'.input, 0, 0⟩, ⟨rfl, hinput, rfl⟩, rfl⟩, hs.symm⟩

theorem bufferReadDerivationStep_ok_iff {number : UInt32} :
    bufferReadDerivationStep s = .ok number s' ↔ ∃ step : WrittenStep, step.Readable ∧
      s.input = step.body ++ s'.input ∧ step.Ends s'.input ∧ number = step.number ∧
      s' = { s with input := s'.input } := by
  have hvalue {digits : Bytes} {value : UInt32} (h : ReadAs 32 digits value) :
      value = UInt32.ofNat (decimalValue digits) := by
    rw [← UInt32.toNat_inj, h.value_eq, UInt32.toNat_ofNat']
  simp only [bufferReadDerivationStep, bind_ok_iff, scan_ok_iff (x := parseUnsignedDecimal 32),
    parseUnsignedDecimal_ok_iff le_rfl, check_ok_iff, scan_consumeCharacter_ok_iff, pure_ok_iff,
    decide_eq_true_eq]
  constructor
  · rintro ⟨value, _, ⟨p, ⟨digits, hinput, hends, hread, -⟩, rfl⟩, _, _, ⟨hlt, rfl⟩, hardened, t, hmark,
      rfl, rfl⟩
    have hreadable (hardened : Bool) : (WrittenStep.mk digits hardened).Readable :=
      ⟨hread.decimal, hread.increasing, hread.value_eq ▸ UInt32.lt_iff_toNat_lt.mp hlt⟩
    rw [hvalue hread]
    rcases hmark with ⟨rfl, hmark, hs⟩ | ⟨rfl, hmark, rfl⟩
    · refine ⟨⟨digits, true⟩, hreadable _, ?_, fun h => Bool.noConfusion h, rfl, hs⟩
      simpa [WrittenStep.body, hinput] using hmark
    · exact ⟨⟨digits, false⟩, hreadable _, by simpa [WrittenStep.body] using hinput,
        fun _ => ⟨hends, hmark⟩, rfl, rfl⟩
  · rintro ⟨⟨digits, hardened⟩, hreadable, hinput, hends, rfl, hs⟩
    have hread : ReadAs 32 digits (UInt32.ofNat (decimalValue digits)) :=
      ⟨hreadable.decimal, hreadable.increasing, UInt32.toNat_ofNat'⟩
    have hlt : UInt32.ofNat (decimalValue digits) < bip32FirstHardenedChild := by
      rw [UInt32.lt_iff_toNat_lt, hread.value_eq]
      exact hreadable.lt
    cases hardened with
    | true =>
      refine ⟨_, { s with input := 0x27 :: s'.input }, ⟨⟨0x27 :: s'.input, 0, 0⟩,
        ⟨digits, by simpa [WrittenStep.body] using hinput, ?_, hread, rfl⟩, rfl⟩, ⟨⟩, _, ⟨hlt, rfl⟩, true,
        s', .inl ⟨rfl, rfl, hs⟩, rfl, rfl⟩
      intro c hc
      cases hc
      decide
    | false =>
      obtain ⟨hends, hmark⟩ := hends rfl
      exact ⟨_, s', ⟨⟨s'.input, 0, 0⟩, ⟨digits, by simpa [WrittenStep.body] using hinput, hends, hread,
        rfl⟩, hs⟩, ⟨⟩, _, ⟨hlt, rfl⟩, false, s', .inr ⟨rfl, hmark, rfl⟩, rfl, rfl⟩

def afterSteps (s : KeyInfoState) (steps : List WrittenStep) (rest : Bytes) : KeyInfoState where
  input := rest
  out := { s.out with
    masterKeyDerivation := s.out.masterKeyDerivation ++ steps.map WrittenStep.number }
  written := s.written + steps.length

theorem ends_cons {c : UInt8} (hdigit : isDigit c = false) (hmark : c ≠ 0x27) : step.Ends (c :: rest) := by
  intro _
  refine ⟨fun d hd => ?_, fun h => hmark (Option.some.inj h)⟩
  rwa [← Option.some.inj hd]

theorem ends_of_steps : step.Ends (steps.flatMap WrittenStep.text ++ 0x5D :: rest) := by
  cases steps with
  | nil => exact ends_cons (by decide) (by decide)
  | cons next steps => exact ends_cons (by decide) (by decide)

theorem readDerivationSteps_of_ne (h : s.input.head? ≠ some 0x2F) :
    readDerivationSteps room s = .ok () s := by
  have hmore : scan (consumeCharacter 0x2F) s = .ok false s :=
    scan_consumeCharacter_ok_iff.mpr (.inr ⟨rfl, h, rfl⟩)
  cases room <;> rw [readDerivationSteps, bind_of_ok hmore] <;> rfl

def stepsAfter : Nat → KeyInfoParse Unit
  | 0 => throw .undefinedBehaviour
  | room + 1 => readDerivationSteps room

theorem readDerivationSteps_of_slash (h : s.input = 0x2F :: rest) : readDerivationSteps room s = (do
      let step ← bufferReadDerivationStep
      writeStep step
      stepsAfter room) { s with input := rest } := by
  have hmore : scan (consumeCharacter 0x2F) s = .ok true { s with input := rest } :=
    scan_consumeCharacter_ok_iff.mpr (.inl ⟨rfl, h, rfl⟩)
  cases room <;> rw [readDerivationSteps, bind_of_ok hmore] <;> rfl

theorem readStep_ok_iff :
    (do let step ← bufferReadDerivationStep; writeStep step; x) { s with input := rest } = .ok a s' ↔
      ∃ step : WrittenStep, ∃ rest', step.Readable ∧ rest = step.body ++ rest' ∧ step.Ends rest' ∧
        x (afterSteps s [step] rest') = .ok a s' := by
  simp only [bind_ok_iff, bufferReadDerivationStep_ok_iff, writeStep, modify_ok_iff]
  constructor
  · rintro ⟨_, t, ⟨step, hreadable, hrest, hends, rfl, ht⟩, _, _, rfl, h⟩
    rw [ht] at h
    exact ⟨step, t.input, hreadable, hrest, hends, h⟩
  · rintro ⟨step, rest', hreadable, hrest, hends, h⟩
    exact ⟨_, { s with input := rest' }, ⟨step, hreadable, hrest, hends, rfl, rfl⟩, ⟨⟩, _, rfl, h⟩

theorem undefined_readStep_iff {x : KeyInfoParse Unit} :
    Undefined (do let step ← bufferReadDerivationStep; writeStep step; x) { s with input := rest } ↔
      ∃ step : WrittenStep, ∃ rest', step.Readable ∧ rest = step.body ++ rest' ∧ step.Ends rest' ∧
        Undefined x (afterSteps s [step] rest') := by
  have hstep (t : KeyInfoState) : ¬Undefined bufferReadDerivationStep t := by
    simp only [bufferReadDerivationStep, undefined_bind_iff, not_undefined_scan, not_undefined_check,
      not_undefined_pure, false_or, and_false, exists_false, not_false_eq_true]
  simp only [undefined_bind_iff, hstep, writeStep, not_undefined_modify, false_or,
    bufferReadDerivationStep_ok_iff, modify_ok_iff]
  constructor
  · rintro ⟨_, t, ⟨step, hreadable, hrest, hends, rfl, ht⟩, _, _, rfl, h⟩
    rw [ht] at h
    exact ⟨step, t.input, hreadable, hrest, hends, h⟩
  · rintro ⟨step, rest', hreadable, hrest, hends, h⟩
    exact ⟨_, { s with input := rest' }, ⟨step, hreadable, hrest, hends, rfl, rfl⟩, ⟨⟩, _, rfl, h⟩

theorem afterSteps_afterSteps (s : KeyInfoState) (steps steps' : List WrittenStep) (rest rest' : Bytes) :
    afterSteps (afterSteps s steps rest) steps' rest' = afterSteps s (steps ++ steps') rest' := by
  simp [afterSteps, Nat.add_assoc]

theorem steps_eq_nil (hinput : input = steps.flatMap WrittenStep.text ++ rest)
    (hslash : input.head? ≠ some 0x2F) : steps = [] := by
  cases steps with
  | nil => rfl
  | cons step steps =>
    rw [hinput] at hslash
    exact absurd rfl hslash

theorem closes_iff_of_ne (hslash : s.input.head? ≠ some 0x2F) :
    (readDerivationSteps room >>= fun _ => scan (expectCharacter 0x5D)) s = .ok u s' ↔
      ∃ steps : List WrittenStep, steps.length ≤ room ∧ (∀ step ∈ steps, step.Readable) ∧
        s.input = steps.flatMap WrittenStep.text ++ 0x5D :: s'.input ∧
        s' = afterSteps s steps s'.input := by
  rw [bind_of_ok (readDerivationSteps_of_ne hslash), scan_expectCharacter_ok_iff]
  constructor
  · rintro ⟨hinput, hs⟩
    exact ⟨[], Nat.zero_le _, fun step hstep => absurd hstep not_mem_nil, hinput, by
      simpa [afterSteps] using hs⟩
  · rintro ⟨steps, hlen, -, hinput, hs⟩
    obtain rfl := steps_eq_nil hinput hslash
    exact ⟨hinput, by simpa [afterSteps] using hs⟩

/-- The steps of an origin up to the closing bracket. -/
theorem readDerivationSteps_ok_iff :
    (readDerivationSteps room >>= fun _ => scan (expectCharacter 0x5D)) s = .ok u s' ↔
      ∃ steps : List WrittenStep, steps.length ≤ room ∧ (∀ step ∈ steps, step.Readable) ∧
        s.input = steps.flatMap WrittenStep.text ++ 0x5D :: s'.input ∧
        s' = afterSteps s steps s'.input := by
  induction room generalizing s with
  | zero =>
    by_cases hslash : s.input.head? = some 0x2F
    · have hrest := eq_cons_of_mem_head? hslash
      rw [bind_ok_iff, readDerivationSteps_of_slash hrest]
      simp only [readStep_ok_iff, stepsAfter, throw_ok_iff, and_false, exists_false, false_and, false_iff]
      rintro ⟨steps, hlen, -, hinput, -⟩
      obtain rfl := length_eq_zero_iff.mp (Nat.le_zero.mp hlen)
      simp [hinput] at hslash
    · exact closes_iff_of_ne hslash
  | succ room ih =>
    by_cases hslash : s.input.head? = some 0x2F
    · have hrest := eq_cons_of_mem_head? hslash
      rw [bind_ok_iff, readDerivationSteps_of_slash hrest]
      simp only [readStep_ok_iff, stepsAfter]
      constructor
      · rintro ⟨_, t, ⟨step, rest, hreadable, hbody, -, hsteps⟩, hclose⟩
        obtain ⟨steps, hlen, hall, hinput, hs⟩ := ih.mp (bind_ok_iff.mpr ⟨_, t, hsteps, hclose⟩)
        refine ⟨step :: steps, Nat.succ_le_succ hlen, forall_mem_cons.mpr ⟨hreadable, hall⟩, ?_, ?_⟩
        · rw [hrest, hbody, show rest = _ from hinput]
          simp [WrittenStep.text]
        · rwa [afterSteps_afterSteps] at hs
      · rintro ⟨steps, hlen, hall, hinput, hs⟩
        cases steps with
        | nil => simp [hinput] at hslash
        | cons step steps =>
          obtain ⟨hreadable, hall⟩ := forall_mem_cons.mp hall
          obtain ⟨_, t, hsteps, hclose⟩ := bind_ok (ih.mpr
            ⟨steps, Nat.le_of_succ_le_succ hlen, hall, rfl, afterSteps_afterSteps s [step] .. ▸ hs⟩)
          refine ⟨_, t, ⟨step, _, hreadable, ?_, ends_of_steps, hsteps⟩, hclose⟩
          rw [hinput]
          simp [WrittenStep.text]
    · exact closes_iff_of_ne hslash

def LastEnds (steps : List WrittenStep) (rest : Bytes) : Prop := ∀ last ∈ steps.getLast?, last.Ends rest

theorem undefined_readDerivationSteps :
    Undefined (readDerivationSteps room) s ↔ ∃ step : WrittenStep, ∃ rest, step.Readable ∧
      s.input = step.text ++ rest ∧ step.Ends rest ∧
        Undefined (stepsAfter room) (afterSteps s [step] rest) := by
  by_cases hslash : s.input.head? = some 0x2F
  · obtain ⟨rest, hinput⟩ : ∃ rest, s.input = 0x2F :: rest := ⟨_, eq_cons_of_mem_head? hslash⟩
    rw [undefined_congr (readDerivationSteps_of_slash hinput), undefined_readStep_iff]
    simp only [hinput, WrittenStep.text, cons_append, cons.injEq, true_and]
  · have hends : Undefined (readDerivationSteps room) s ↔ Undefined (pure () : KeyInfoParse Unit) s :=
      undefined_congr (readDerivationSteps_of_ne hslash)
    rw [hends]
    constructor
    · intro h
      exact absurd h (not_undefined_pure () s)
    · rintro ⟨step, rest, -, hinput, -⟩
      rw [hinput] at hslash
      exact absurd rfl hslash

/-- One step more than there is room for is written behind the array. -/
theorem undefined_readDerivationSteps_iff :
    Undefined (readDerivationSteps room) s ↔ ∃ steps : List WrittenStep, ∃ rest,
      steps.length = room + 1 ∧ (∀ step ∈ steps, step.Readable) ∧
        s.input = steps.flatMap WrittenStep.text ++ rest ∧ LastEnds steps rest := by
  induction room generalizing s with
  | zero =>
    rw [undefined_readDerivationSteps]
    constructor
    · rintro ⟨step, rest, hreadable, hinput, hends, -⟩
      exact ⟨[step], rest, rfl, by simpa using hreadable, by simpa using hinput,
        by simpa [LastEnds] using hends⟩
    · rintro ⟨steps, rest, hlen, hall, hinput, hlast⟩
      obtain ⟨step, rfl⟩ := length_eq_one_iff.mp hlen
      exact ⟨step, rest, by simpa using hall, by simpa using hinput, by simpa [LastEnds] using hlast,
        undefined_throw _⟩
  | succ room ih =>
    rw [undefined_readDerivationSteps]
    simp only [stepsAfter, ih]
    constructor
    · rintro ⟨step, _, hreadable, hinput, -, steps, rest, hlen, hall, rfl, hlast⟩
      refine ⟨step :: steps, rest, congrArg (· + 1) hlen, forall_mem_cons.mpr ⟨hreadable, hall⟩,
        by simpa using hinput, ?_⟩
      cases steps with
      | nil => simp at hlen
      | cons next steps => simpa [LastEnds] using hlast
    · rintro ⟨steps, rest, hlen, hall, hinput, hlast⟩
      cases steps with
      | nil => simp at hlen
      | cons step steps =>
        obtain ⟨hreadable, hall⟩ := forall_mem_cons.mp hall
        cases steps with
        | nil => simp at hlen
        | cons next steps =>
          exact ⟨step, (next :: steps).flatMap WrittenStep.text ++ rest, hreadable,
            by simpa using hinput, ends_cons (by decide) (by decide), next :: steps, rest,
            Nat.succ.inj hlen, hall, rfl, by simpa [LastEnds] using hlast⟩

def readFingerprint : KeyInfoParse Unit := do
  fill fun out => { out with hasKeyOrigin := true }
  let s ← get
  check (9 ≤ s.input.length)
  readFingerprintByte 0
  readFingerprintByte 1
  readFingerprintByte 2
  readFingerprintByte 3

theorem readKeyOrigin_eq : readKeyOrigin = readFingerprint >>= fun _ =>
    readDerivationSteps maxBip32PathSteps >>= fun _ => scan (expectCharacter 0x5D) := by
  simp only [readKeyOrigin, readFingerprint, bind_assoc]

def afterFingerprint (fingerprint rest : Bytes) : KeyInfoState :=
  ⟨rest, { PolicyMapKeyInfo.zero with hasKeyOrigin := true, masterKeyFingerprint := fingerprint }, 0⟩

theorem readFingerprint_ok_iff :
    readFingerprint ⟨input, .zero, 0⟩ = .ok u s' ↔ ∃ fingerprint, fingerprint.length = 4 ∧
      9 ≤ input.length ∧ input = hexText fingerprint ++ s'.input ∧
      s' = afterFingerprint fingerprint s'.input := by
  simp only [readFingerprint, bind_ok_iff, fill_ok_iff, get_ok_iff, check_ok_iff, decide_eq_true_eq,
    readFingerprintByte_ok_iff]
  constructor
  · rintro ⟨_, _, rfl, _, _, ⟨rfl, rfl⟩, _, _, ⟨hlen, rfl⟩, _, s1, ⟨a, ha, hs1⟩, _, s2, ⟨b, hb, hs2⟩, _,
      s3, ⟨c, hc, hs3⟩, d, hd, hs4⟩
    refine ⟨[a, b, c, d], rfl, hlen, ?_, ?_⟩
    · rw [show input = _ from ha, hb, hc, hd]
      rfl
    · rw [hs4, hs3, hs2, hs1]
      rfl
  · rintro ⟨fingerprint, hfour, hlen, hinput, hs⟩
    obtain ⟨a, b, c, d, rfl⟩ := length_eq_four.mp hfour
    refine ⟨⟨⟩, _, rfl, _, _, ⟨rfl, rfl⟩, ⟨⟩, _, ⟨hlen, rfl⟩,
      ⟨⟩, afterFingerprint [a, 0, 0, 0] (hexText [b, c, d] ++ s'.input), ⟨a, ?_, rfl⟩,
      ⟨⟩, afterFingerprint [a, b, 0, 0] (hexText [c, d] ++ s'.input), ⟨b, ?_, rfl⟩,
      ⟨⟩, afterFingerprint [a, b, c, 0] (hexText [d] ++ s'.input), ⟨c, ?_, rfl⟩, d, rfl, hs⟩
    · exact hinput
    · rfl
    · rfl

theorem not_undefined_readFingerprint (s : KeyInfoState) : ¬Undefined readFingerprint s := by
  simp only [readFingerprint, readFingerprintByte, undefined_bind_iff, not_undefined_fill,
    not_undefined_get, not_undefined_check, not_undefined_scan, false_or, and_false, exists_false,
    not_false_eq_true]

structure ReadsOrigin (info : Bytes) (origin : Option WrittenOrigin) (rest : Bytes) : Prop where
  info_eq : info = originText origin ++ rest
  fingerprint : ∀ o ∈ origin, o.fingerprint.length = 4
  length_le : ∀ o ∈ origin, o.steps.length ≤ maxBip32PathSteps
  readable : ∀ o ∈ origin, ∀ step ∈ o.steps, step.Readable
  absent : origin = none → rest.head? ≠ some 0x5B

def afterOrigin (origin : Option WrittenOrigin) (rest : Bytes) : KeyInfoState where
  input := rest
  out := { PolicyMapKeyInfo.zero with
    masterKeyDerivation := origin.elim [] fun o => o.steps.map WrittenStep.number
    masterKeyFingerprint := origin.elim [0, 0, 0, 0] WrittenOrigin.fingerprint
    hasKeyOrigin := origin.isSome }
  written := origin.elim 0 fun o => o.steps.length

theorem readKeyOriginIfAny_of_bracket (input : Bytes) :
    readKeyOriginIfAny ⟨0x5B :: input, .zero, 0⟩ = readKeyOrigin ⟨input, .zero, 0⟩ := by
  have hfound : scan (consumeCharacter 0x5B) ⟨0x5B :: input, .zero, 0⟩ = .ok true ⟨input, .zero, 0⟩ :=
    scan_consumeCharacter_ok_iff.mpr (.inl ⟨rfl, rfl, rfl⟩)
  rw [readKeyOriginIfAny, bind_of_ok hfound]
  rfl

theorem readKeyOriginIfAny_of_ne (h : info.head? ≠ some 0x5B) :
    readKeyOriginIfAny ⟨info, .zero, 0⟩ = .ok () ⟨info, .zero, 0⟩ := by
  have hfound : scan (consumeCharacter 0x5B) ⟨info, .zero, 0⟩ = .ok false ⟨info, .zero, 0⟩ :=
    scan_consumeCharacter_ok_iff.mpr (.inr ⟨rfl, h, rfl⟩)
  rw [readKeyOriginIfAny, bind_of_ok hfound]
  rfl

theorem readKeyOriginIfAny_ok_iff : readKeyOriginIfAny ⟨info, .zero, 0⟩ = .ok u s' ↔
      ∃ origin, ReadsOrigin info origin s'.input ∧ s' = afterOrigin origin s'.input := by
  by_cases hbracket : info.head? = some 0x5B
  · obtain ⟨input, rfl⟩ : ∃ input, info = 0x5B :: input := ⟨_, eq_cons_of_mem_head? hbracket⟩
    rw [readKeyOriginIfAny_of_bracket, readKeyOrigin_eq, bind_ok_iff]
    simp only [readFingerprint_ok_iff, readDerivationSteps_ok_iff]
    constructor
    · rintro ⟨_, t, ⟨fingerprint, hfour, -, hinput, ht⟩, steps, hlen, hall, hsteps, hs⟩
      refine ⟨some ⟨fingerprint, steps⟩, ⟨?_, by simpa using hfour, by simpa using hlen,
        by simpa using hall, fun h => by cases h⟩, ?_⟩
      · simp [originText, WrittenOrigin.text, hinput, hsteps]
      · rw [hs, ht]
        simp [afterSteps, afterFingerprint, afterOrigin, PolicyMapKeyInfo.zero]
    · rintro ⟨origin, horigin, hs⟩
      cases origin with
      | none =>
        have hinfo : s'.input = 0x5B :: input := horigin.info_eq.symm
        exact absurd (by rw [hinfo]; rfl) (horigin.absent rfl)
      | some o =>
        have hinput : input = hexText o.fingerprint ++
            (o.steps.flatMap WrittenStep.text ++ 0x5D :: s'.input) := by
          simpa [originText, WrittenOrigin.text] using horigin.info_eq
        have hfour := horigin.fingerprint o rfl
        refine ⟨⟨⟩, afterFingerprint o.fingerprint (o.steps.flatMap WrittenStep.text ++ 0x5D :: s'.input),
          ⟨o.fingerprint, hfour, ?_, hinput, rfl⟩, o.steps, horigin.length_le o rfl,
          horigin.readable o rfl, rfl, ?_⟩
        · rw [hinput]
          simp [length_hexText, hfour]
          omega
        · rw [hs]
          simp [afterSteps, afterFingerprint, afterOrigin, PolicyMapKeyInfo.zero]
  · rw [readKeyOriginIfAny_of_ne hbracket]
    constructor
    · intro h
      cases h
      exact ⟨none, ⟨rfl, by simp, by simp, by simp, fun _ => hbracket⟩, rfl⟩
    · rintro ⟨origin, horigin, hs⟩
      cases origin with
      | none =>
        have hinfo : s'.input = info := horigin.info_eq.symm
        rw [hs, hinfo]
        rfl
      | some o =>
        rw [horigin.info_eq] at hbracket
        exact absurd rfl hbracket

/-- The origin has more steps than the array has room for, and the first of these can be read. -/
def TooManySteps (info : Bytes) : Prop :=
  ∃ fingerprint : Bytes, ∃ steps : List WrittenStep, ∃ rest, fingerprint.length = 4 ∧
    steps.length = maxBip32PathSteps + 1 ∧ (∀ step ∈ steps, step.Readable) ∧ LastEnds steps rest ∧
    info = 0x5B :: hexText fingerprint ++ steps.flatMap WrittenStep.text ++ rest

theorem undefined_readKeyOriginIfAny_iff :
    Undefined readKeyOriginIfAny ⟨info, .zero, 0⟩ ↔ TooManySteps info := by
  by_cases hbracket : info.head? = some 0x5B
  · obtain ⟨input, rfl⟩ : ∃ input, info = 0x5B :: input := ⟨_, eq_cons_of_mem_head? hbracket⟩
    rw [undefined_congr (readKeyOriginIfAny_of_bracket input), readKeyOrigin_eq]
    simp only [undefined_bind_iff, not_undefined_readFingerprint, not_undefined_scan, false_or, and_false,
      exists_false, or_false, readFingerprint_ok_iff, undefined_readDerivationSteps_iff]
    constructor
    · rintro ⟨_, t, ⟨fingerprint, hfour, -, hinput, -⟩, steps, rest, hlen, hall, hsteps, hlast⟩
      refine ⟨fingerprint, steps, rest, hfour, hlen, hall, hlast, ?_⟩
      rw [hinput, hsteps]
      simp
    · rintro ⟨fingerprint, steps, rest, hfour, hlen, hall, hlast, hinfo⟩
      have hinput : input = hexText fingerprint ++ (steps.flatMap WrittenStep.text ++ rest) := by
        simpa using hinfo
      refine ⟨⟨⟩, afterFingerprint fingerprint (steps.flatMap WrittenStep.text ++ rest),
        ⟨fingerprint, hfour, ?_, hinput, rfl⟩, steps, rest, hlen, hall, rfl, hlast⟩
      cases steps with
      | nil => cases hlen
      | cons step steps =>
        rw [hinput]
        simp [length_hexText, hfour, WrittenStep.text]
        omega
  · rw [undefined_congr (y := pure ()) (readKeyOriginIfAny_of_ne hbracket)]
    constructor
    · intro h
      exact absurd h (not_undefined_pure () _)
    · rintro ⟨fingerprint, steps, rest, -, -, -, -, hinfo⟩
      rw [hinfo] at hbracket
      exact absurd rfl hbracket

def EndsWord (rest : Bytes) : Prop := ∀ c ∈ rest.head?, isAlphanumeric c = false

theorem takeWhile_take_append {p : UInt8 → Bool} {n : Nat} {word : Bytes} (hword : ∀ c ∈ word, p c)
    (hends : word.length = n ∨ word.length < n ∧ ∀ c ∈ rest.head?, p c = false) :
    ((word ++ rest).take n).takeWhile p = word := by
  have hle : word.length ≤ n := by rcases hends with h | h <;> omega
  have hrest : (rest.take (n - word.length)).takeWhile p = [] := by
    rcases hends with hlen | ⟨hlen, hhead⟩
    · rw [hlen, Nat.sub_self]
      rfl
    · cases rest with
      | nil => simp
      | cons c rest =>
        obtain ⟨m, hm⟩ : ∃ m, n - word.length = m + 1 := ⟨n - word.length - 1, by omega⟩
        rw [hm, take_succ_cons, takeWhile_cons, hhead c rfl]
        rfl
  rw [take_append, take_of_length_le hle, takeWhile_append_of_pos hword, hrest, append_nil]

theorem exists_split_word (p : UInt8 → Bool) (n : Nat) (input : Bytes) :
    ∃ word rest, input = word ++ rest ∧ (∀ c ∈ word, p c) ∧
      (word.length = n ∨ word.length < n ∧ ∀ c ∈ rest.head?, p c = false) := by
  have hall : ∀ c ∈ input.takeWhile p, p c := fun c hc => mem_takeWhile_imp hc
  by_cases hlen : (input.takeWhile p).length < n
  · refine ⟨input.takeWhile p, input.dropWhile p, takeWhile_append_dropWhile.symm, hall,
      .inr ⟨hlen, fun c hc => ?_⟩⟩
    have hnot := head?_dropWhile_not p input
    rw [hc] at hnot
    simpa using hnot
  · refine ⟨(input.takeWhile p).take n, (input.takeWhile p).drop n ++ input.dropWhile p, ?_,
      fun c hc => hall c (take_subset _ _ hc), .inl ?_⟩
    · rw [← append_assoc, take_append_drop, takeWhile_append_dropWhile]
    · rw [length_take]
      omega

theorem readPubkeyString_eq {word : Bytes} (hinput : s.input = word ++ rest)
    (hword : ∀ c ∈ word, isAlphanumeric c)
    (hends : word.length = maxSerializedPubkeyLength ∨
      word.length < maxSerializedPubkeyLength ∧ EndsWord rest) :
    readPubkeyString s =
      if word.length = maxSerializedPubkeyLength then .error .undefinedBehaviour { s with input := rest }
      else .ok word { s with input := rest } := by
  have htake := takeWhile_take_append hword hends
  have hget : (get : KeyInfoParse KeyInfoState) s = .ok s s := rfl
  rw [readPubkeyString, bind_of_ok hget, hinput, htake, drop_left]
  split_ifs <;> rfl

theorem readPubkeyString_ok_iff {word : Bytes} :
    readPubkeyString s = .ok word s' ↔ s.input = word ++ s'.input ∧
      (∀ c ∈ word, isAlphanumeric c) ∧ word.length < maxSerializedPubkeyLength ∧
      EndsWord s'.input ∧ s' = { s with input := s'.input } := by
  constructor
  · intro h
    obtain ⟨first, rest, hinput, hfirst, hends⟩ :=
      exists_split_word isAlphanumeric maxSerializedPubkeyLength s.input
    rw [readPubkeyString_eq hinput hfirst hends] at h
    split_ifs at h with hlen
    cases h
    obtain ⟨hlt, hends⟩ := hends.resolve_left hlen
    exact ⟨hinput, hfirst, hlt, hends, rfl⟩
  · rintro ⟨hinput, hword, hlt, hends, hs⟩
    rw [readPubkeyString_eq hinput hword (.inr ⟨hlt, hends⟩), if_neg (Nat.ne_of_lt hlt), ← hs]

theorem undefined_readPubkeyString_iff : Undefined readPubkeyString s ↔ ∃ word rest, s.input = word ++ rest ∧
      (∀ c ∈ word, isAlphanumeric c) ∧ word.length = maxSerializedPubkeyLength := by
  constructor
  · rintro ⟨s', h⟩
    obtain ⟨word, rest, hinput, hword, hends⟩ :=
      exists_split_word isAlphanumeric maxSerializedPubkeyLength s.input
    rw [readPubkeyString_eq hinput hword hends] at h
    split_ifs at h with hlen
    exact ⟨word, rest, hinput, hword, hlen⟩
  · rintro ⟨word, rest, hinput, hword, hlen⟩
    exact ⟨_, by rw [readPubkeyString_eq hinput hword (.inl hlen), if_pos hlen]⟩

section

variable {sha256 : Bytes → Digest} {word : Bytes} (hlow : 2 ≤ word.length)
  (hhigh : word.length ≤ maxDecInputSize)

include hlow hhigh

theorem decodePubkey_ok_iff {key : ExtPubkey} :
    decodePubkey sha256 word s = .ok key s' ↔ s' = s ∧ ∃ raw, Base58 raw word ∧ raw.length = 82 ∧
      (sha256 (sha256 (raw.take 78)).bytes).bytes.take 4 = raw.drop 78 ∧
      key = .ofBytes (raw.take 78) := by
  have hdecode (raw : Bytes) := @base58Decode_eq_some_iff 82 raw word hlow hhigh
  constructor
  · intro h
    cases hraw : base58Decode word 82 with
    | none => simp [decodePubkey, hraw] at h
    | some raw =>
      obtain ⟨hbase58, hle⟩ := (hdecode raw).mp hraw
      rw [decodePubkey, hraw] at h
      dsimp only at h
      split_ifs at h with hshort hsum
      · simp at h
      · simp at h
      · obtain ⟨rfl, rfl⟩ := pure_ok h
        exact ⟨rfl, raw, hbase58, by omega, not_not.mp hsum, rfl⟩
  · rintro ⟨rfl, raw, hbase58, hlen, hsum, rfl⟩
    have hraw := (hdecode raw).mpr ⟨hbase58, hlen.le⟩
    rw [decodePubkey, hraw]
    dsimp only
    rw [if_neg (by omega), if_neg (not_not.mpr hsum)]
    rfl

theorem undefined_decodePubkey_iff :
    Undefined (decodePubkey sha256 word) s ↔ ∃ raw, Base58 raw word ∧ raw.length < 82 := by
  have hdecode (raw : Bytes) := @base58Decode_eq_some_iff 82 raw word hlow hhigh
  constructor
  · rintro ⟨s', h⟩
    cases hraw : base58Decode word 82 with
    | none =>
      rw [decodePubkey, hraw] at h
      cases h
    | some raw =>
      rw [decodePubkey, hraw] at h
      dsimp only at h
      split_ifs at h with hshort hsum
      · exact ⟨raw, ((hdecode raw).mp hraw).1, hshort⟩
      · cases h
      · cases h
  · rintro ⟨raw, hbase58, hshort⟩
    have hraw := (hdecode raw).mpr ⟨hbase58, hshort.le⟩
    refine ⟨s, ?_⟩
    rw [decodePubkey, hraw]
    dsimp only
    rw [if_pos hshort]
    rfl

end

theorem readWildcard_ok_iff {version : Nat} (hversion : version = 1 ∨ version = 2) (hwildcard : s.out.hasWildcard = false) :
    readWildcard version s = .ok u s' ↔ s.input = wildcardText version ∧
      s' = { s with out := { s.out with hasWildcard := version = 1 } } := by
  have hget : (get : KeyInfoParse KeyInfoState) s = .ok s s := rfl
  rw [readWildcard, bind_of_ok hget]
  by_cases hempty : s.input = []
  · rw [if_pos hempty, check_ok_iff, decide_eq_true_eq]
    rcases hversion with rfl | rfl
    · simp [wildcardText, hempty, show text "/**" ≠ [] by decide]
    · have hsame : { s with out := { s.out with hasWildcard := decide (2 = 1) } } = s := by
        rw [show decide (2 = 1) = s.out.hasWildcard from hwildcard.symm]
      rw [hsame]
      simp [wildcardText, hempty, eq_comm]
  · rw [if_neg hempty]
    simp only [bind_ok_iff, check_ok_iff, fill_ok_iff, decide_eq_true_eq]
    rcases hversion with rfl | rfl
    · constructor
      · rintro ⟨_, _, ⟨-, rfl⟩, _, _, rfl, hinput, rfl⟩
        exact ⟨hinput, rfl⟩
      · rintro ⟨hinput, hs⟩
        exact ⟨⟨⟩, s, ⟨by decide, rfl⟩, ⟨⟩, _, rfl, hinput, hs.symm⟩
    · simp [wildcardText, hempty]

theorem not_undefined_readWildcard (version : Nat) (s : KeyInfoState) :
    ¬Undefined (readWildcard version) s := by
  rw [readWildcard, undefined_bind_iff]
  rintro (h | ⟨a, t, -, h⟩)
  · exact not_undefined_get s h
  · split at h
    · exact not_undefined_check _ _ h
    · simp only [undefined_bind_iff, not_undefined_check, not_undefined_fill, false_or, and_false,
        exists_false] at h

end KeyInfo

end LedgerBabylon
