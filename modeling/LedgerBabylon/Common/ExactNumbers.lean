import LedgerBabylon.Common.PolicyText

/-!
# Exact numbers

When the numbers of a template are the written ones. A number with more than 32 bits can go unnoticed,
and the check of derivation numbers lets the first number of hardened steps through.
-/

namespace LedgerBabylon

open Exec Parse

variable {bits : Nat}

/-- The number in the tree is the written one, and derivation numbers are not those of hardened steps. -/
structure WrittenNumber.Exact (n : WrittenNumber bits) : Prop where
  value_eq : n.value.toNat = decimalValue n.digits
  unhardened : n.kind = .derivation → n.value.toNat < 2 ^ 31

/-- The written number has 32 bits, and a derivation number is not the first of a hardened step. -/
structure WrittenNumber.Fits (n : WrittenNumber bits) : Prop where
  lt : decimalValue n.digits < 2 ^ 32
  ne : n.kind = .derivation → decimalValue n.digits ≠ 2 ^ 31

theorem WrittenNumber.exact_iff_fits (n : WrittenNumber bits) : n.Exact ↔ n.Fits := by
  have hvalue := n.readAs.value_eq
  have hlt := n.value.toNat_lt
  constructor
  · intro h
    have heq := h.value_eq
    refine ⟨by omega, fun hkind => ?_⟩
    have hless := h.unhardened hkind
    omega
  · intro h
    have heq : n.value.toNat = decimalValue n.digits := hvalue.trans (Nat.mod_eq_of_lt h.lt)
    refine ⟨heq, fun hkind => ?_⟩
    have hrange := n.inRange
    have hne := h.ne hkind
    rw [hkind] at hrange
    have hrange : n.value.toNat ≤ 0x80000000 := hrange
    omega

/-- Wherever a text goes on with the digits, they are read as the number that they denote, or rejected. -/
def DecimalExact (bits : Nat) (digits : Bytes) : Prop :=
  ∀ (s s' : ParseState) (rest : Bytes) (value : UInt32), s.input = digits ++ rest →
    EndsNumber rest → parseUnsignedDecimal bits s = .ok value s' →
    IsDecimal digits ∧ decimalValue digits < 2 ^ 32 ∧ value.toNat = decimalValue digits

theorem decimalExact_iff (hbits : 32 ≤ bits) {digits : Bytes}
    (hall : ∀ c ∈ digits, isDigit c) : DecimalExact bits digits ↔
      (decimalValue digits < 2 ^ 32 ∨ ¬IsDecimal digits ∨ Decreases bits digits) := by
  constructor
  · intro h
    by_contra hnot
    simp only [not_or, not_not] at hnot
    obtain ⟨hlarge, hdecimal, hincreasing⟩ := hnot
    have hread : ReadAs bits digits (UInt32.ofNat (decimalValue digits)) :=
      ⟨hdecimal, hincreasing, UInt32.toNat_ofNat'⟩
    have hrest : EndsNumber [] := fun c hc => by cases hc
    have hok := (@parseUnsignedDecimal_ok_iff bits hbits ⟨digits, 0, 0⟩ ⟨[], 0, 0⟩ _).mpr
      ⟨digits, (List.append_nil _).symm, hrest, hread, rfl⟩
    exact hlarge (h _ _ [] _ (List.append_nil _).symm hrest hok).2.1
  · intro h s s' rest value hinput hrest hok
    obtain ⟨digits', hinput', hrest', hread, -⟩ := (parseUnsignedDecimal_ok_iff hbits).mp hok
    obtain ⟨rfl, -⟩ := digits_injective hall hread.decimal.all hrest hrest' (hinput.symm.trans hinput')
    have hlt : decimalValue digits < 2 ^ 32 :=
      h.resolve_right (not_or.mpr ⟨not_not.mpr hread.decimal, hread.increasing⟩)
    exact ⟨hread.decimal, hlt, hread.value_eq.trans (Nat.mod_eq_of_lt hlt)⟩

/-- Numbers of 32 bits are exact: a longer digit string is read as something else unless a digit makes
it smaller on the way, and an accepted template has the numbers that are written, except that a
derivation number can be `2 ^ 31`. -/
theorem policyNumbers_exact_iff (hbits : bits = 32 ∨ bits = 64) :
    (∀ digits : Bytes, (∀ c ∈ digits, isDigit c) → (DecimalExact bits digits ↔
      (decimalValue digits < 2 ^ 32 ∨ ¬IsDecimal digits ∨ Decreases bits digits))) ∧
    ∀ (env : ParseEnv) (template : Bytes) (policy : PolicyNode), env.sizeBits = bits →
      parseDescriptorTemplate env template = some policy →
      (∃ numbers : List (WrittenNumber env.sizeBits), ScriptText env.version template policy numbers) ∧
      ∀ numbers : List (WrittenNumber env.sizeBits), ScriptText env.version template policy numbers →
        ((∀ n ∈ numbers, n.Exact) ↔ ∀ n ∈ numbers, n.Fits) := by
  have hle : 32 ≤ bits := by omega
  refine ⟨fun digits hall => decimalExact_iff hle hall, ?_⟩
  rintro env template policy rfl hparse
  refine ⟨(parseDescriptorTemplate_text hle hparse).1, fun numbers _ => ?_⟩
  exact forall₂_congr fun n _ => n.exact_iff_fits

theorem policyNumbers_exact_iff_wpkh : DecimalExact 32 (text "4294967295") ∧
      ∃ numbers : List (WrittenNumber 32), ScriptText 2 (text "wpkh(@0/**)")
        (.withKey none .wpkh ⟨0, 1, .normal 0, 0⟩) numbers :=
  ⟨((policyNumbers_exact_iff (.inl rfl)).1 _ (by decide +kernel)).mpr (.inl (by decide)),
    ((policyNumbers_exact_iff (.inl rfl)).2 (.device 2) (text "wpkh(@0/**)") _ rfl rfl).1⟩

/-- Ten digits with the value 5,000,000,000 are read as 705,032,704, and a derivation number can be that
of a hardened step. -/
theorem not_decimalExact_tenDigits : ¬DecimalExact 32 (text "5000000000") ∧
      (match parseDescriptorTemplate (.device 2) (text "wpkh(@0/<2147483648;5000000000>/*)") with
        | some (.withKey _ .wpkh key) => some key
        | _ => none) = some ⟨2147483648, 705032704, .normal 0, 0⟩ := by
  refine ⟨fun h => ?_, by decide +kernel⟩
  obtain ⟨-, hlt, -⟩ := h ⟨text "5000000000", 0, 0⟩ ⟨[], 0, 0⟩ [] 705032704 (by decide)
    (fun c hc => by cases hc) rfl
  exact absurd hlt (by decide)

end LedgerBabylon
