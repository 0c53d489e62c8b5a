import Mathlib.Tactic.Common
import Mathlib.Tactic.Ring
import Mathlib.Tactic.Linarith
import Mathlib.Algebra.Order.Ring.Nat
import Mathlib.Data.List.Induction

/-!
# Decimal digits

Numbers as lists of decimal digits, the most significant one first: the digits of a given width, and
doubling digit by digit.
-/

namespace Decimal

open List

variable {width n bit : Nat} {ds : List Nat}

def value : List Nat → Nat
  | [] => 0
  | d :: ds => d * 10 ^ ds.length + value ds

def digits : Nat → Nat → List Nat
  | 0, _ => []
  | width + 1, n => digits width (n / 10) ++ [n % 10]

theorem value_append (as bs : List Nat) : value (as ++ bs) = value as * 10 ^ bs.length + value bs := by
  induction as with
  | nil => simp [value]
  | cons a as ih =>
    simp only [cons_append, value, ih, length_append, pow_add]
    ring

theorem value_concat (ds : List Nat) (d : Nat) : value (ds ++ [d]) = 10 * value ds + d := by
  rw [value_append]
  simp only [value, length_singleton, length_nil]
  ring

@[simp] theorem length_digits (width n : Nat) : (digits width n).length = width := by
  induction width generalizing n with
  | zero => rfl
  | succ width ih => simp [digits, ih]

theorem digits_lt {d : Nat} (h : d ∈ digits width n) : d < 10 := by
  induction width generalizing n with
  | zero => cases h
  | succ width ih =>
    rcases mem_append.mp h with hinit | hlast
    · exact ih hinit
    · rw [mem_singleton.mp hlast]
      exact Nat.mod_lt _ (by decide)

theorem value_digits (width n : Nat) : value (digits width n) = n % 10 ^ width := by
  induction width generalizing n with
  | zero => simp [digits, value, Nat.mod_one]
  | succ width ih =>
    rw [digits, value_append, ih, pow_succ', Nat.mod_mul]
    simp only [value, length_singleton, length_nil]
    ring

theorem digits_value (h : ∀ d ∈ ds, d < 10) : digits ds.length (value ds) = ds := by
  induction ds using reverseRecOn with
  | nil => rfl
  | append_singleton ds d ih =>
    have hd : d < 10 := h d (by simp)
    rw [length_append, length_singleton, digits, value_concat]
    rw [show (10 * value ds + d) / 10 = value ds by omega, show (10 * value ds + d) % 10 = d by omega,
      ih fun e he => h e (by simp [he])]

theorem digits_append (w1 w2 n : Nat) : digits (w1 + w2) n = digits w1 (n / 10 ^ w2) ++ digits w2 n := by
  induction w2 generalizing n with
  | zero => simp [digits]
  | succ w2 ih =>
    rw [← Nat.add_assoc, digits, ih, digits, append_assoc, Nat.div_div_eq_div_mul, ← pow_succ']

theorem digits_mod (width n : Nat) : digits width (n % 10 ^ width) = digits width n := by
  have hdigits := digits_value (fun d (hd : d ∈ digits width n) => digits_lt hd)
  rwa [length_digits, value_digits] at hdigits

@[simp] theorem digits_zero (width : Nat) : digits width 0 = replicate width 0 := by
  induction width with
  | zero => rfl
  | succ width ih => rw [digits, Nat.zero_div, ih, replicate_succ']

def carry (bit : Nat) : List Nat → Nat
  | [] => bit
  | d :: _ => if 5 ≤ d then 1 else 0

def double (bit : Nat) : List Nat → List Nat
  | [] => []
  | d :: ds => (2 * d % 10 + carry bit ds) :: double bit ds

@[simp] theorem length_double (bit : Nat) (ds : List Nat) : (double bit ds).length = ds.length := by
  induction ds with
  | nil => rfl
  | cons d ds ih => simp [double, ih]

theorem carry_le (hbit : bit ≤ 1) (ds : List Nat) : carry bit ds ≤ 1 := by
  cases ds with
  | nil => exact hbit
  | cons d ds =>
    show (if 5 ≤ d then 1 else 0) ≤ 1
    split <;> omega

theorem double_lt (hbit : bit ≤ 1) {e : Nat} (h : e ∈ double bit ds) : e < 10 := by
  induction ds with
  | nil => cases h
  | cons d ds ih =>
    rcases mem_cons.mp h with rfl | htail
    · have hcarry := carry_le hbit ds
      omega
    · exact ih htail

theorem value_double (bit : Nat) (h : ∀ d ∈ ds, d < 10) :
    value (double bit ds) + carry bit ds * 10 ^ ds.length = 2 * value ds + bit := by
  induction ds with
  | nil => simp [double, value, carry]
  | cons d ds ih =>
    have hd : d < 10 := h d mem_cons_self
    have htail := ih fun e he => h e (mem_cons_of_mem d he)
    have hsplit : 2 * d = 2 * d % 10 + 10 * carry bit (d :: ds) := by
      show 2 * d = 2 * d % 10 + 10 * (if 5 ≤ d then 1 else 0)
      split <;> omega
    calc value (double bit (d :: ds)) + carry bit (d :: ds) * 10 ^ (d :: ds).length
        = (2 * d % 10 + 10 * carry bit (d :: ds)) * 10 ^ ds.length
            + (value (double bit ds) + carry bit ds * 10 ^ ds.length) := by
          simp only [double, value, length_double, length_cons, pow_succ]
          ring
      _ = 2 * value (d :: ds) + bit := by
          rw [← hsplit, htail, value]
          ring

theorem double_digits (hbit : bit ≤ 1) (h : 2 * n + bit < 10 ^ width) :
    double bit (digits width n) = digits width (2 * n + bit) := by
  have hdigit : ∀ d ∈ digits width n, d < 10 := fun d => digits_lt
  have hn : n % 10 ^ width = n := Nat.mod_eq_of_lt (by omega)
  have hvalue := value_double bit hdigit
  rw [value_digits, hn, length_digits] at hvalue
  have hcarry : carry bit (digits width n) = 0 := by
    by_contra hne
    have hpos : 10 ^ width ≤ carry bit (digits width n) * 10 ^ width :=
      Nat.le_mul_of_pos_left _ (Nat.pos_of_ne_zero hne)
    omega
  rw [hcarry, Nat.zero_mul, Nat.add_zero] at hvalue
  rw [← hvalue]
  have hdigits := digits_value (fun e (he : e ∈ double bit (digits width n)) => double_lt hbit he)
  rw [length_double, length_digits] at hdigits
  exact hdigits.symm

theorem getElem_double {k : Nat} (hk : k < ds.length) :
    (double bit ds)[k]? = some (2 * ds.getD k 0 % 10 + carry bit (ds.drop (k + 1))) := by
  induction ds generalizing k with
  | nil => cases hk
  | cons d ds ih =>
    cases k with
    | zero => simp [double]
    | succ k =>
      have htail := ih (Nat.lt_of_succ_lt_succ hk)
      simpa [double] using htail

end Decimal
