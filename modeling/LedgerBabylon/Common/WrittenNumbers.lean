import LedgerBabylon.Common.PolicyParser
import LedgerBabylon.Common.ScriptTexts
import LedgerBabylon.Lib.Decimal
import Mathlib.Data.List.TakeWhile

/-!
# Written numbers

A decimal number is read digit by digit in `size_t` arithmetic, and a digit that makes the result
smaller is taken for an overflow. A result can also wrap around without becoming smaller, so what is read
is the written number modulo a power of two. Hashes and fingerprints are written in hexadecimal digits.
-/

namespace LedgerBabylon

open Endian Exec Parse List

variable {bits n : Nat} {c : UInt8}

def digitValue (c : UInt8) : Nat := (c - 0x30).toNat

def decimalValue (digits : Bytes) : Nat := Decimal.value (digits.map digitValue)

theorem decimalValue_concat (digits : Bytes) (c : UInt8) :
    decimalValue (digits ++ [c]) = 10 * decimalValue digits + digitValue c := by
  rw [decimalValue, map_append, map_singleton, Decimal.value_concat]
  rfl

/-- A canonical decimal number: some digits, the first of them a zero only if it is alone. -/
structure IsDecimal (digits : Bytes) : Prop where
  ne_nil : digits ≠ []
  all : ∀ c ∈ digits, isDigit c
  head : digits.head? = some 0x30 → digits.length = 1

def Decreases (bits : Nat) (digits : Bytes) : Prop := ∃ i < digits.length,
    decimalValue (digits.take (i + 1)) % 2 ^ bits < decimalValue (digits.take i) % 2 ^ bits

instance (bits : Nat) : DecidablePred (Decreases bits) := fun digits =>
  inferInstanceAs (Decidable (∃ i < digits.length,
    decimalValue (digits.take (i + 1)) % 2 ^ bits < decimalValue (digits.take i) % 2 ^ bits))

def EndsNumber (rest : Bytes) : Prop := ∀ c ∈ rest.head?, isDigit c = false

def GoesOn (bits : Nat) (digits : Bytes) (i : Nat) : Prop :=
  ¬(i = 1 ∧ decimalValue (digits.take i) % 2 ^ bits = 0) ∧
    decimalValue (digits.take i) % 2 ^ bits ≤ decimalValue (digits.take (i + 1)) % 2 ^ bits

theorem decimalLoop_eq_some_iff {rest : Bytes} (hrest : EndsNumber rest)
    (before after : Bytes) (hafter : ∀ c ∈ after, isDigit c) {value : Nat} :
    decimalLoop bits (after ++ rest) before.length (decimalValue before % 2 ^ bits) = some (n, value) ↔
      (n = (before ++ after).length ∧ value = decimalValue (before ++ after) % 2 ^ bits) ∧
        ∀ i, before.length ≤ i → i < (before ++ after).length → GoesOn bits (before ++ after) i := by
  induction after generalizing before with
  | nil =>
    have hloop : decimalLoop bits rest before.length (decimalValue before % 2 ^ bits) =
        some (before.length, decimalValue before % 2 ^ bits) := by
      cases rest with
      | nil => rfl
      | cons c rest => simp [decimalLoop, hrest c rfl]
    rw [nil_append, append_nil, hloop, Option.some.injEq, Prod.mk.injEq]
    constructor
    · rintro ⟨rfl, rfl⟩
      exact ⟨⟨rfl, rfl⟩, fun i hle hlt => absurd hlt (Nat.not_lt.mpr hle)⟩
    · rintro ⟨⟨rfl, rfl⟩, -⟩
      exact ⟨rfl, rfl⟩
  | cons c after ih =>
    obtain ⟨hc, hafter⟩ := forall_mem_cons.mp hafter
    have hsplit : before ++ c :: after = (before ++ [c]) ++ after := by simp
    have hnext : (10 * (decimalValue before % 2 ^ bits) + (c - 0x30).toNat) % 2 ^ bits =
        decimalValue (before ++ [c]) % 2 ^ bits := by
      rw [decimalValue_concat, Nat.add_mod, Nat.mul_mod, Nat.mod_mod, ← Nat.mul_mod, ← Nat.add_mod]
      rfl
    have htake : (before ++ c :: after).take before.length = before := take_left
    have htake' : (before ++ c :: after).take (before.length + 1) = before ++ [c] := by
      rw [hsplit, take_left' (by simp)]
    have hlen : before.length < (before ++ c :: after).length := by simp
    have hlen' : (before ++ [c]).length = before.length + 1 := by simp
    -- the conditions on the digit that comes next
    have hgoes : GoesOn bits (before ++ c :: after) before.length ↔
        ¬(before.length = 1 ∧ decimalValue before % 2 ^ bits = 0) ∧
          ¬decimalValue (before ++ [c]) % 2 ^ bits < decimalValue before % 2 ^ bits := by
      rw [GoesOn, htake, htake', Nat.not_lt]
    have hrange : (∀ i, before.length ≤ i → i < (before ++ c :: after).length →
        GoesOn bits (before ++ c :: after) i) ↔ GoesOn bits (before ++ c :: after) before.length ∧
        ∀ i, before.length + 1 ≤ i → i < (before ++ c :: after).length →
          GoesOn bits (before ++ c :: after) i := by
      constructor
      · intro h
        exact ⟨h _ le_rfl hlen, fun i hle hlt => h i (Nat.le_of_succ_le hle) hlt⟩
      · rintro ⟨hfirst, h⟩ i hle hlt
        rcases Nat.eq_or_lt_of_le hle with rfl | hle
        · exact hfirst
        · exact h i hle hlt
    rw [hrange, hgoes, cons_append, decimalLoop, if_pos hc]
    dsimp only
    rw [hnext]
    split_ifs with hzero hless
    · simp [hzero]
    · simp [hless]
    · have hih := ih (before ++ [c]) hafter
      rw [← hsplit, hlen'] at hih
      rw [hih]
      simp [hzero, hless]

theorem digitValue_lt (h : isDigit c) : digitValue c < 10 := by
  simp only [isDigit, Bool.and_eq_true, decide_eq_true_eq, UInt8.le_iff_toNat_le] at h
  obtain ⟨hlow, hhigh⟩ := h
  have hsub := UInt8.toNat_sub_of_le c 0x30 (UInt8.le_iff_toNat_le.mpr hlow)
  have hlow : 48 ≤ c.toNat := hlow
  have hhigh : c.toNat ≤ 57 := hhigh
  rw [digitValue, hsub]
  show c.toNat - 48 < 10
  omega

theorem digitValue_eq_zero_iff : digitValue c = 0 ↔ c = 0x30 := by
  rw [digitValue, ← UInt8.toNat_zero, UInt8.toNat_inj]
  constructor
  · intro h
    rw [← UInt8.sub_add_cancel c 0x30, h]
    rfl
  · rintro rfl
    rfl

theorem forall_goesOn_iff (hbits : 4 ≤ bits) {digits : Bytes} (hne : digits ≠ [])
    (hall : ∀ c ∈ digits, isDigit c) :
    (∀ i < digits.length, GoesOn bits digits i) ↔ IsDecimal digits ∧ ¬Decreases bits digits := by
  obtain ⟨c, cs, rfl⟩ := exists_cons_of_ne_nil hne
  have hfirst : decimalValue ((c :: cs).take 1) % 2 ^ bits = 0 ↔ c = 0x30 := by
    have hlt : digitValue c < 2 ^ bits := calc
      digitValue c < 10 := digitValue_lt (hall c mem_cons_self)
      _ < 2 ^ 4 := by decide
      _ ≤ 2 ^ bits := Nat.pow_le_pow_right (by decide) hbits
    rw [take_succ_cons, take_zero, decimalValue, map_singleton]
    simp only [Decimal.value, length_nil, pow_zero, mul_one, add_zero]
    rw [Nat.mod_eq_of_lt hlt, digitValue_eq_zero_iff]
  constructor
  · intro h
    refine ⟨⟨hne, hall, fun hhead => ?_⟩, ?_⟩
    · by_contra hlen
      have hgoes := h 1 (by simp at hlen ⊢; exact length_pos_iff.mpr hlen)
      exact hgoes.1 ⟨rfl, hfirst.mpr (Option.some.inj hhead)⟩
    · rintro ⟨i, hi, hless⟩
      exact absurd hless (Nat.not_lt.mpr (h i hi).2)
  · rintro ⟨hdecimal, hdecreases⟩ i hi
    refine ⟨?_, ?_⟩
    · rintro ⟨rfl, hzero⟩
      have hlen := hdecimal.head (congrArg some (hfirst.mp hzero))
      omega
    · by_contra hless
      exact hdecreases ⟨i, hi, Nat.lt_of_not_le hless⟩

theorem exists_split_digits (input : Bytes) :
    ∃ digits rest, input = digits ++ rest ∧ (∀ c ∈ digits, isDigit c) ∧ EndsNumber rest := by
  refine ⟨input.takeWhile isDigit, input.dropWhile isDigit, takeWhile_append_dropWhile.symm, ?_, ?_⟩
  · intro c hc
    exact mem_takeWhile_imp hc
  · intro c hc
    have hnot := head?_dropWhile_not isDigit input
    rw [hc] at hnot
    simpa using hnot

theorem digits_injective {ds es rest rest' : Bytes} (hds : ∀ c ∈ ds, isDigit c)
    (hes : ∀ c ∈ es, isDigit c) (hrest : EndsNumber rest) (hrest' : EndsNumber rest')
    (h : ds ++ rest = es ++ rest') : ds = es ∧ rest = rest' := by
  have hnone {rest : Bytes} (hrest : EndsNumber rest) : rest.takeWhile isDigit = [] := by
    cases rest with
    | nil => rfl
    | cons c rest => rw [takeWhile_cons, hrest c rfl]; rfl
  have htake := congrArg (takeWhile isDigit) h
  rw [takeWhile_append_of_pos hds, takeWhile_append_of_pos hes, hnone hrest, hnone hrest',
    append_nil, append_nil] at htake
  exact ⟨htake, append_cancel_left (htake ▸ h)⟩

structure ReadAs (bits : Nat) (digits : Bytes) (value : UInt32) : Prop where
  decimal : IsDecimal digits
  increasing : ¬Decreases bits digits
  value_eq : value.toNat = decimalValue digits % 2 ^ 32

theorem toNat_ofNat_mod (hbits : 32 ≤ bits) (n : Nat) : (UInt32.ofNat (n % 2 ^ bits)).toNat = n % 2 ^ 32 := by
  rw [UInt32.toNat_ofNat']
  exact Nat.mod_mod_of_dvd n (Nat.pow_dvd_pow 2 hbits)

/-- What `parse_unsigned_decimal` accepts and what it returns. -/
theorem parseUnsignedDecimal_ok_iff (hbits : 32 ≤ bits) {s s' : ParseState} {value : UInt32} :
    parseUnsignedDecimal bits s = .ok value s' ↔ ∃ digits,
      s.input = digits ++ s'.input ∧ EndsNumber s'.input ∧ ReadAs bits digits value ∧
        s' = { s with input := s'.input } := by
  constructor
  · intro h
    simp only [parseUnsignedDecimal, bind_ok_iff, get_ok_iff, ofOption_ok_iff, set_ok_iff, check_ok_iff,
      pure_ok_iff] at h
    obtain ⟨_, _, ⟨rfl, rfl⟩, ⟨n, result⟩, _, ⟨hloop, rfl⟩, _, _, rfl, _, _, ⟨hne, rfl⟩, rfl, rfl⟩ := h
    obtain ⟨digits, rest, hinput, hall, hrest⟩ := exists_split_digits s.input
    rw [hinput] at hloop
    have hloop := (decimalLoop_eq_some_iff hrest [] digits hall).mp hloop
    obtain ⟨⟨rfl, rfl⟩, hgoes⟩ := hloop
    have hnil : digits ≠ [] := by
      rintro rfl
      simp at hne
    have hdrop : s.input.drop ([] ++ digits).length = rest := by rw [hinput]; exact drop_left
    obtain ⟨hdecimal, hdecreases⟩ := (forall_goesOn_iff (Nat.le_trans (by decide) hbits) hnil hall).mp
      fun i hi => hgoes i (Nat.zero_le _) hi
    dsimp only
    rw [hdrop]
    exact ⟨digits, hinput, hrest, ⟨hdecimal, hdecreases, toNat_ofNat_mod hbits _⟩, rfl⟩
  · rintro ⟨digits, hinput, hrest, hread, hs⟩
    have hgoes := (forall_goesOn_iff (Nat.le_trans (by decide) hbits) hread.decimal.ne_nil
      hread.decimal.all).mpr ⟨hread.decimal, hread.increasing⟩
    have hloop : decimalLoop bits s.input 0 0 = some (digits.length, decimalValue digits % 2 ^ bits) := by
      rw [hinput]
      exact (decimalLoop_eq_some_iff hrest [] digits hread.decimal.all).mpr
        ⟨⟨rfl, rfl⟩, fun i _ hi => hgoes i hi⟩
    have hvalue : UInt32.ofNat (decimalValue digits % 2 ^ bits) = value := by
      rw [← UInt32.toNat_inj, toNat_ofNat_mod hbits, hread.value_eq]
    have hdrop : s.input.drop digits.length = s'.input := by rw [hinput]; exact drop_left
    simp only [parseUnsignedDecimal, bind_ok_iff, get_ok_iff, ofOption_ok_iff, set_ok_iff, check_ok_iff,
      pure_ok_iff]
    refine ⟨s, s, ⟨rfl, rfl⟩, _, s, ⟨hloop, rfl⟩, ⟨⟩, s', ?_, ⟨⟩, s', ⟨?_, rfl⟩, hvalue, rfl⟩
    · rw [hdrop]
      exact hs.symm
    · simpa using hread.decimal.ne_nil

theorem lowercaseHex_lowercaseHexToInt (h : isLowercaseHex c) :
    lowercaseHex (lowercaseHexToInt c).toNat = c ∧ lowercaseHexToInt c < 16 := by
  have hall : ∀ c, isLowercaseHex c → lowercaseHex (lowercaseHexToInt c).toNat = c ∧
      lowercaseHexToInt c < 16 := forall_byte (by decide +kernel)
  exact hall c h

theorem hexText_of_digits {d : UInt8} (hc : isLowercaseHex c) (hd : isLowercaseHex d) :
    hexText [16 * lowercaseHexToInt c + lowercaseHexToInt d] = [c, d] := by
  have hsplit : ∀ m n : Fin 16, hexText [16 * UInt8.ofNat m + UInt8.ofNat n] =
      [lowercaseHex m, lowercaseHex n] := by decide +kernel
  obtain ⟨hcdigit, hclt⟩ := lowercaseHex_lowercaseHexToInt hc
  obtain ⟨hddigit, hdlt⟩ := lowercaseHex_lowercaseHexToInt hd
  have htext := hsplit ⟨(lowercaseHexToInt c).toNat, hclt⟩ ⟨(lowercaseHexToInt d).toNat, hdlt⟩
  simp only [UInt8.ofNat_toNat] at htext
  rw [htext, hcdigit, hddigit]

theorem hexBytes_eq_some {cs bytes : Bytes} (hlen : cs.length = 2 * n)
    (h : hexBytes cs = some bytes) : bytes.length = n ∧ cs = hexText bytes := by
  induction n generalizing cs bytes with
  | zero =>
    obtain rfl := length_eq_zero_iff.mp hlen
    obtain rfl : [] = bytes := Option.some.inj h
    exact ⟨rfl, rfl⟩
  | succ n ih =>
    match cs, hlen with
    | c :: d :: cs, hlen =>
      rw [hexBytes] at h
      split_ifs at h with hhex
      obtain ⟨hc, hd⟩ := Bool.and_eq_true_iff.mp hhex
      obtain ⟨rest, hrest, rfl⟩ := Option.map_eq_some_iff.mp h
      obtain ⟨hn, rfl⟩ := ih (by simpa [Nat.mul_add] using hlen) hrest
      refine ⟨congrArg (· + 1) hn, ?_⟩
      show [c, d] ++ hexText rest = hexText [_] ++ hexText rest
      rw [hexText_of_digits hc hd]

theorem hexBytes_hexText (bytes : Bytes) : hexBytes (hexText bytes) = some bytes := by
  have hbyte : ∀ b : UInt8, (isLowercaseHex (lowercaseHex (b.toNat / 16)) &&
      isLowercaseHex (lowercaseHex (b.toNat % 16))) ∧
      16 * lowercaseHexToInt (lowercaseHex (b.toNat / 16)) +
        lowercaseHexToInt (lowercaseHex (b.toNat % 16)) = b := forall_byte (by decide +kernel)
  induction bytes with
  | nil => rfl
  | cons b bytes ih =>
    obtain ⟨hhex, hvalue⟩ := hbyte b
    show hexBytes (lowercaseHex (b.toNat / 16) :: lowercaseHex (b.toNat % 16) :: hexText bytes) = _
    rw [hexBytes, if_pos hhex, ih, hvalue]
    rfl

theorem bufferReadHexHash_ok_iff {bytes : Bytes} {s s' : ParseState} : bufferReadHexHash n s = .ok bytes s' ↔
      bytes.length = n ∧ s.input = hexText bytes ++ s'.input ∧ s' = { s with input := s'.input } := by
  simp only [bufferReadHexHash, bind_ok_iff, get_ok_iff, check_ok_iff, ofOption_ok_iff, set_ok_iff,
    pure_ok_iff, decide_eq_true_eq]
  constructor
  · rintro ⟨_, _, ⟨rfl, rfl⟩, _, _, ⟨hlen, rfl⟩, _, _, ⟨hbytes, rfl⟩, _, _, rfl, rfl, rfl⟩
    obtain ⟨hn, htext⟩ := hexBytes_eq_some (by rw [length_take, Nat.min_eq_left hlen]) hbytes
    exact ⟨hn, by rw [← htext, take_append_drop], rfl⟩
  · rintro ⟨rfl, hinput, hs⟩
    have htake : s.input.take (2 * bytes.length) = hexText bytes := by
      rw [hinput, take_left' (length_hexText bytes)]
    have hdrop : s.input.drop (2 * bytes.length) = s'.input := by
      rw [hinput, drop_left' (length_hexText bytes)]
    refine ⟨s, s, ⟨rfl, rfl⟩, ⟨⟩, s, ⟨?_, rfl⟩, bytes, s, ⟨?_, rfl⟩, ⟨⟩, s', ?_, rfl, rfl⟩
    · rw [hinput, length_append, length_hexText]
      omega
    · rw [htake, hexBytes_hexText]
    · rw [hdrop]
      exact hs.symm

end LedgerBabylon
