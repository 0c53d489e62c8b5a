import LedgerBabylon.Common.Script
import LedgerBabylon.Lib.Decimal
import Mathlib.Tactic.IntervalCases

/-!
# Amounts as text

`format_sats_amount` divides the amount, and prints the two parts.
-/

namespace LedgerBabylon

open List Decimal

variable {width number fuel d : Nat} {ds : List Nat}

def maxAmountLength : Nat := 5 + 1 + 20 + 1

def digitChar (d : Nat) : UInt8 := UInt8.ofNat (0x30 + d)

def nDigitsLoop : Nat → Nat → Nat
  | 0, _ => 0
  | fuel + 1, number => 1 + if number / 10 ≠ 0 then nDigitsLoop fuel (number / 10) else 0

def nDigits (number : Nat) : Nat := nDigitsLoop 20 number

def lastDigits : Nat → Nat → Bytes
  | 0, _ => []
  | count + 1, number => lastDigits count (number / 10) ++ [digitChar (number % 10)]

def dropTrailingZeros : Nat → Bytes → Bytes
  | 0, s => s
  | i + 1, s => if s.getLast? = some (digitChar 0) then dropTrailingZeros i s.dropLast else s

/-- `format_sats_amount`. The nano devices print the ticker first, the others last. -/
def formatSatsAmount (screenSizeWallet : Bool) (coinName : Bytes) (amount : UInt64) : Bytes :=
  let integralPart := amount.toNat / 100000000
  let fractionalPart := amount.toNat % 100000000
  let integralStr := lastDigits (nDigits integralPart) integralPart
  let fractionalStr := dropTrailingZeros 7 (lastDigits 8 fractionalPart)
  let number := integralStr ++ if fractionalPart ≠ 0 then text "." ++ fractionalStr else []
  let out := if screenSizeWallet then number ++ text " " ++ coinName else coinName ++ text " " ++ number
  out.take maxAmountLength

theorem lastDigits_eq (count number : Nat) : lastDigits count number = (digits count number).map digitChar := by
  induction count generalizing number with
  | zero => rfl
  | succ count ih => simp [lastDigits, digits, ih]

theorem dropWhile_digits (hpos : 0 < number) (hlt : number < 10 ^ width) :
    (digits width number).dropWhile (· = 0) = digits (nDigitsLoop width number) number := by
  induction width generalizing number with
  | zero => omega
  | succ width ih =>
    rw [digits, nDigitsLoop]
    by_cases hsmall : number / 10 = 0
    · have hlast : number % 10 = number := by omega
      have hne : ¬number = 0 := by omega
      rw [hsmall, digits_zero, if_neg (by simp), hlast]
      simp [digits, hlast, hne]
    · rw [if_pos hsmall, dropWhile_append,
        ih (Nat.pos_of_ne_zero hsmall) (by rw [pow_succ] at hlt; omega), Nat.add_comm 1, digits]
      have hlen : digits (nDigitsLoop width (number / 10)) (number / 10) ≠ [] := by
        intro hnil
        have hzero := congrArg length hnil
        cases width with
        | zero => omega
        | succ width => simp [nDigitsLoop] at hzero
      simp [hlen]

theorem nDigits_pos (number : Nat) : 0 < nDigits number := by
  rw [nDigits, nDigitsLoop]
  omega

theorem nDigitsLoop_le (h : number < 10 ^ (width + 1)) : nDigitsLoop fuel number ≤ width + 1 := by
  induction fuel generalizing width number with
  | zero => exact Nat.zero_le _
  | succ fuel ih =>
    rw [nDigitsLoop]
    split
    · next hmore =>
        cases width with
        | zero => omega
        | succ width =>
          have hrest : nDigitsLoop fuel (number / 10) ≤ width + 1 := ih (by rw [pow_succ] at h; omega)
          omega
    · omega

theorem lt_pow_nDigitsLoop (h : number < 10 ^ fuel) : number < 10 ^ nDigitsLoop fuel number := by
  induction fuel generalizing number with
  | zero => simpa [nDigitsLoop] using h
  | succ fuel ih =>
    rw [nDigitsLoop]
    split
    · have hrest : number / 10 < 10 ^ nDigitsLoop fuel (number / 10) := ih (by rw [pow_succ] at h; omega)
      rw [pow_add]
      omega
    · omega

theorem head_digits_nDigits (h : number < 10 ^ 20)
    (hhead : (digits (nDigits number) number).head? = some 0) : digits (nDigits number) number = [0] := by
  by_cases hzero : number = 0
  · subst hzero
    decide
  · have htrim := @dropWhile_digits 20 number (Nat.pos_of_ne_zero hzero) h
    change _ = digits (nDigits number) number at htrim
    generalize digits 20 number = ds at htrim
    have hnot := head?_dropWhile_not (fun d => decide (d = 0)) ds
    rw [htrim, hhead] at hnot
    simp at hnot

def trimEnd : List Nat → List Nat
  | [] => []
  | d :: ds => if (d :: ds).all (· = 0) then [] else d :: trimEnd ds

theorem trimEnd_append_zero (ds : List Nat) : trimEnd (ds ++ [0]) = trimEnd ds := by
  induction ds with
  | nil => rfl
  | cons d ds ih => simp [trimEnd, ih]

theorem trimEnd_append (hd : d ≠ 0) : trimEnd (ds ++ [d]) = ds ++ [d] := by
  induction ds with
  | nil => simp [trimEnd, hd]
  | cons e ds ih => simp [trimEnd, ih, hd]

theorem trimEnd_spec (ds : List Nat) : ds = trimEnd ds ++ replicate (ds.length - (trimEnd ds).length) 0 ∧
      (trimEnd ds).length ≤ ds.length ∧ (trimEnd ds).getLast? ≠ some 0 := by
  induction ds using reverseRecOn with
  | nil => simp [trimEnd]
  | append_singleton ds d ih =>
    by_cases hd : d = 0
    · subst hd
      obtain ⟨heq, hle, hlast⟩ := ih
      rw [trimEnd_append_zero]
      refine ⟨?_, by rw [length_append]; omega, hlast⟩
      conv_lhs => rw [heq]
      rw [append_assoc, ← replicate_succ', length_append, length_singleton, Nat.sub_add_comm hle]
    · rw [trimEnd_append hd]
      simp [hd]

theorem digitChar_zero_iff (hd : d < 10) : digitChar d = digitChar 0 ↔ d = 0 := by
  interval_cases d <;> decide

theorem dropTrailingZeros_eq {i : Nat} (hdigit : ∀ d ∈ ds, d < 10)
    (hlen : ds.length = i + 1) (hne : ¬ds.all (· = 0)) :
    dropTrailingZeros i (ds.map digitChar) = (trimEnd ds).map digitChar := by
  induction i generalizing ds with
  | zero =>
    obtain ⟨d, rfl⟩ := length_eq_one_iff.mp hlen
    have hd : d ≠ 0 := by simpa using hne
    simp [dropTrailingZeros, trimEnd, hd]
  | succ i ih =>
    induction ds using reverseRecOn with
    | nil => simp at hlen
    | append_singleton ds d _ =>
      have hlast : (map digitChar (ds ++ [d])).getLast? = some (digitChar d) := by simp
      have hd : d < 10 := hdigit d (by simp)
      simp only [dropTrailingZeros, hlast, Option.some.injEq, digitChar_zero_iff hd]
      by_cases hzero : d = 0
      · subst hzero
        rw [if_pos rfl, trimEnd_append_zero]
        have hdigit' : ∀ e ∈ ds, e < 10 := fun e he => hdigit e (by simp [he])
        have hrest := ih hdigit' (by simpa using hlen) (by simpa using hne)
        simpa using hrest
      · rw [if_neg hzero, trimEnd_append hzero]

/-- A text of an amount: an integral part without superfluous zeros in front, and decimals, if any,
without superfluous zeros at the end. -/
structure CanonicalAmount (amount : Nat) (s : Bytes) (integral decimals : List Nat) : Prop where
  text_eq : s = integral.map digitChar ++ if decimals ≠ [] then text "." ++ decimals.map digitChar else []
  digits_lt : ∀ d ∈ integral ++ decimals, d < 10
  integral_ne_nil : integral ≠ []
  leading : integral.head? = some 0 → integral = [0]
  trailing : decimals.getLast? ≠ some 0
  length_le : decimals.length ≤ 8
  value_eq : value integral * 10 ^ 8 + value decimals * 10 ^ (8 - decimals.length) = amount

def integralDigits (amount : UInt64) : List Nat :=
  digits (nDigits (amount.toNat / 10 ^ 8)) (amount.toNat / 10 ^ 8)

def decimalDigits (amount : UInt64) : List Nat := trimEnd (digits 8 (amount.toNat % 10 ^ 8))

def amountText (integral decimals : List Nat) : Bytes :=
  integral.map digitChar ++ if decimals ≠ [] then text "." ++ decimals.map digitChar else []

theorem trimEnd_eq_nil_iff (ds : List Nat) : trimEnd ds = [] ↔ ds.all (· = 0) := by
  cases ds with
  | nil => simp [trimEnd]
  | cons d ds =>
    rw [trimEnd]
    split
    · next hall => exact ⟨fun _ => hall, fun _ => rfl⟩
    · next hall => exact ⟨fun hnil => absurd hnil (by simp), fun h => absurd h hall⟩

theorem all_digits_zero_iff {n : Nat} (h : n < 10 ^ width) : (digits width n).all (· = 0) ↔ n = 0 := by
  constructor
  · intro hall
    have hzero : digits width n = replicate width 0 := by
      rw [eq_replicate_iff]
      exact ⟨length_digits width n, by simpa using hall⟩
    have hvalue := congrArg value hzero
    rwa [← digits_zero, value_digits, value_digits, Nat.zero_mod, Nat.mod_eq_of_lt h] at hvalue
  · rintro rfl
    simp

theorem integral_lt (amount : UInt64) : amount.toNat / 10 ^ 8 < 10 ^ 12 := by
  have hlt := amount.toNat_lt
  omega

theorem canonicalAmount (amount : UInt64) :
    CanonicalAmount amount.toNat (amountText (integralDigits amount) (decimalDigits amount))
      (integralDigits amount) (decimalDigits amount) := by
  have hintegral := integral_lt amount
  obtain ⟨htrim, hlen, hlast⟩ := trimEnd_spec (digits 8 (amount.toNat % 10 ^ 8))
  rw [length_digits] at htrim hlen
  constructor
  case text_eq => rfl
  case digits_lt =>
    intro d hd
    rcases mem_append.mp hd with hd | hd
    · exact digits_lt hd
    · apply @digits_lt 8 (amount.toNat % 10 ^ 8)
      rw [htrim]
      exact mem_append_left _ hd
  case integral_ne_nil =>
    intro hnil
    have hzero := congrArg length hnil
    rw [integralDigits, length_digits] at hzero
    exact absurd hzero (nDigits_pos _).ne'
  case leading => exact head_digits_nDigits (lt_of_lt_of_le hintegral (by decide))
  case trailing => exact hlast
  case length_le => exact hlen
  case value_eq =>
    have hdecimals := congrArg value htrim
    rw [value_digits, Nat.mod_mod, value_append, length_replicate, ← digits_zero, value_digits,
      Nat.zero_mod, Nat.add_zero] at hdecimals
    have hvalue : value (integralDigits amount) = amount.toNat / 10 ^ 8 := by
      rw [integralDigits, value_digits]
      exact Nat.mod_eq_of_lt (lt_pow_nDigitsLoop (lt_of_lt_of_le hintegral (by decide)))
    rw [decimalDigits, ← hdecimals, hvalue]
    omega

/-- On a nano device, the ticker is followed by the canonical text. -/
theorem formatSatsAmount_eq (coin : Coin) (amount : UInt64) : formatSatsAmount false coin.coinidShort amount =
      coin.coinidShort ++ text " " ++ amountText (integralDigits amount) (decimalDigits amount) := by
  have hmod : amount.toNat % 10 ^ 8 < 10 ^ 8 := Nat.mod_lt _ (by decide)
  have hnumber : lastDigits (nDigits (amount.toNat / 10 ^ 8)) (amount.toNat / 10 ^ 8) ++
      (if amount.toNat % 10 ^ 8 ≠ 0 then
        text "." ++ dropTrailingZeros 7 (lastDigits 8 (amount.toNat % 10 ^ 8)) else []) =
      amountText (integralDigits amount) (decimalDigits amount) := by
    rw [amountText, lastDigits_eq, lastDigits_eq, integralDigits]
    congr 1
    by_cases hzero : amount.toNat % 10 ^ 8 = 0
    · have hnil : decimalDigits amount = [] := by
        rw [decimalDigits, trimEnd_eq_nil_iff, all_digits_zero_iff hmod, hzero]
      rw [if_neg (by simpa using hzero), if_neg (by simpa using hnil)]
    · have hall : ¬(digits 8 (amount.toNat % 10 ^ 8)).all (· = 0) := by
        rwa [all_digits_zero_iff hmod]
      have hnil : decimalDigits amount ≠ [] := by
        rwa [decimalDigits, Ne, trimEnd_eq_nil_iff]
      rw [if_pos hzero, if_pos hnil, dropTrailingZeros_eq (fun d => digits_lt) (length_digits _ _) hall]
      rfl
  have hlen : (coin.coinidShort ++ text " " ++
      amountText (integralDigits amount) (decimalDigits amount)).length ≤ maxAmountLength := by
    have hcoin : coin.coinidShort.length ≤ 4 := by cases coin <;> decide
    have hint : (integralDigits amount).length ≤ 12 := by
      rw [integralDigits, length_digits]
      exact nDigitsLoop_le (integral_lt amount)
    have hdec := (canonicalAmount amount).length_le
    simp only [amountText, length_append, length_map, maxAmountLength]
    split
    · simp only [length_append, length_map, show (text ".").length = 1 from rfl,
        show (text " ").length = 1 from rfl]
      omega
    · simp only [length_nil, show (text " ").length = 1 from rfl]
      omega
  unfold formatSatsAmount
  simp only [Bool.false_eq_true, if_false]
  rw [show (100000000 : Nat) = 10 ^ 8 from rfl, hnumber, take_of_length_le hlen]

end LedgerBabylon
