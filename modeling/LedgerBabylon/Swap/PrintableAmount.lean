import LedgerBabylon.Ui.DisplayUtils
import LedgerBabylon.Lib.Endian
import Mathlib.Data.List.GetD

/-!
# Amounts in the swap library

The exchange application asks for the text of an amount that it gives as big-endian bytes. The text is
computed by doubling a number of 21 decimal digits, bit by bit: before a shift, three is added to digits
from five on, so that they carry. Digits before `smin` are zero and left alone.
-/

namespace LedgerBabylon

open List Decimal Endian

variable {bit width k : Nat}

def scratchSize : Nat := 21

structure Scratch where
  scratch : List Nat
  smin : Nat

def addThree (d : Nat) : Nat := d + if 5 ≤ d then 3 else 0

/-- One round of the inner loop. Every digit is shifted before the one that it takes its last bit from,
so all can be looked at at once. -/
def Scratch.shiftIn (bit : Nat) (s : Scratch) : Scratch :=
  let scratch := s.scratch.mapIdx fun k d => if s.smin ≤ k then addThree d else d
  let smin := if 8 ≤ scratch.getD s.smin 0 then s.smin - 1 else s.smin
  let lastBit k := if k < scratchSize - 1 then (if 8 ≤ scratch.getD (k + 1) 0 then 1 else 0) else bit
  ⟨scratch.mapIdx fun k d => if smin ≤ k then ((d <<< 1) &&& 0xF) ||| lastBit k else d, smin⟩

def bitsOf (byte : UInt8) : List Nat :=
  (range 8).map fun j => if byte.toNat &&& (1 <<< (7 - j)) ≠ 0 then 1 else 0

def Scratch.initial : Scratch := ⟨replicate scratchSize 0, scratchSize - 2⟩

def Scratch.ofAmount (amount : Bytes) : Scratch :=
  (amount.flatMap bitsOf).foldl (fun s bit => s.shiftIn bit) .initial

def leadingText : List Nat → Bool → Bytes
  | [], _ => []
  | d :: ds, nonZero =>
    if !nonZero && d = 0 then leadingText ds false else digitChar d :: leadingText ds true

def trailingText : List Nat → Bool → Bytes
  | [], _ => []
  | d :: ds, comma =>
    if (d :: ds).all (· = 0) then []
    else (if comma then [] else text ".") ++ digitChar d :: trailingText ds true

def convertHexAmountToDisplayable (amount : Bytes) : Bytes :=
  let digits := (Scratch.ofAmount amount).scratch
  let integral := leadingText (digits.take 13) false
  (if integral = [] then text "0" else integral) ++ trailingText ((digits.drop 13).take 8) false

def handleGetPrintableAmount (coinName amount : Bytes) : Option Bytes :=
  if 8 < amount.length then none
  else some (coinName ++ text " " ++
    convertHexAmountToDisplayable (replicate (8 - amount.length) 0 ++ amount))

structure Scratch.Holds (s : Scratch) (n : Nat) : Prop where
  scratch : s.scratch = digits scratchSize n
  smin_le : s.smin ≤ scratchSize - 2
  lt : n < 10 ^ (scratchSize - s.smin)

theorem eight_le_addThree (d : Nat) : 8 ≤ addThree d ↔ 5 ≤ d := by
  unfold addThree
  split <;> omega

theorem getD_map_addThree (ds : List Nat) (k : Nat) : (ds.map addThree).getD k 0 = addThree (ds.getD k 0) :=
  getD_map ds 0 addThree

theorem shift_addThree {d : Nat} (hd : d < 10) (hbit : bit ≤ 1) :
    ((addThree d <<< 1) &&& 0xF) ||| bit = 2 * d % 10 + bit := by
  interval_cases d <;> interval_cases bit <;> decide

theorem getD_digits_lt (width n k : Nat) : (digits width n).getD k 0 < 10 := by
  rcases lt_or_ge k width with hk | hk
  · rw [getD_eq_getElem _ _ (by rwa [length_digits])]
    exact digits_lt (getElem_mem _)
  · rw [getD_eq_default _ _ (by rwa [length_digits])]
    decide

theorem getD_digits {n : Nat} (hk : k < width) :
    (digits width n).getD k 0 = n / 10 ^ (width - 1 - k) % 10 := by
  induction width generalizing n with
  | zero => omega
  | succ width ih =>
    rw [digits]
    rcases Nat.lt_or_ge k width with hlt | hge
    · rw [getD_append _ _ _ _ (by rwa [length_digits]), ih hlt, Nat.div_div_eq_div_mul, ← pow_succ']
      congr 3
      omega
    · obtain rfl : k = width := by omega
      rw [getD_append_right _ _ _ _ (by rw [length_digits])]
      simp

theorem carry_digits {n : Nat} : carry bit ((digits width n).drop (k + 1)) =
      if k + 1 < width then (if 5 ≤ (digits width n).getD (k + 1) 0 then 1 else 0) else bit := by
  split
  · next hk =>
      have hlen : k + 1 < (digits width n).length := by rwa [length_digits]
      rw [drop_eq_getElem_cons hlen, getD_eq_getElem _ _ hlen]
      rfl
  · next hk =>
      rw [drop_of_length_le (by rw [length_digits]; omega)]
      rfl

namespace Scratch

variable {s : Scratch} {n : Nat}

theorem Holds.getD_eq_zero (h : s.Holds n) (hk : k < s.smin) : (digits scratchSize n).getD k 0 = 0 := by
  have hsmin := h.smin_le
  have hlt : n < 10 ^ (scratchSize - 1 - k) :=
    lt_of_lt_of_le h.lt (Nat.pow_le_pow_right (by decide) (by omega))
  rw [getD_digits (by simp only [scratchSize] at *; omega), Nat.div_eq_of_lt hlt]

theorem Holds.mapIdx_addThree (h : s.Holds n) :
    (s.scratch.mapIdx fun k d => if s.smin ≤ k then addThree d else d) =
      (digits scratchSize n).map addThree := by
  rw [h.scratch]
  apply ext_getElem (by simp)
  intro k hk _
  simp only [getElem_mapIdx, getElem_map]
  split
  · rfl
  · next hlt =>
      have hk' : k < (digits scratchSize n).length := by simpa using hk
      have hzero := h.getD_eq_zero (Nat.not_le.mp hlt)
      rw [getD_eq_getElem _ _ hk'] at hzero
      rw [hzero]
      rfl

theorem Holds.smin_shiftIn (h : s.Holds n) (bit : Nat) : (s.shiftIn bit).smin =
      if 5 ≤ (digits scratchSize n).getD s.smin 0 then s.smin - 1 else s.smin := by
  simp only [shiftIn, h.mapIdx_addThree, getD_map_addThree, eight_le_addThree]

theorem Holds.scratch_shiftIn (h : s.Holds n) (hbit : bit ≤ 1) :
    (s.shiftIn bit).scratch = double bit (digits scratchSize n) := by
  have hsmin := h.smin_shiftIn bit
  have hscratch : (s.shiftIn bit).scratch = ((digits scratchSize n).map addThree).mapIdx fun k d =>
      if (s.shiftIn bit).smin ≤ k then
        ((d <<< 1) &&& 0xF) ||| carry bit ((digits scratchSize n).drop (k + 1)) else d := by
    have hlast (k : Nat) : (if k < scratchSize - 1 then
          (if 8 ≤ ((digits scratchSize n).map addThree).getD (k + 1) 0 then 1 else 0) else bit) =
        carry bit ((digits scratchSize n).drop (k + 1)) := by
      rw [carry_digits, getD_map_addThree]
      simp only [eight_le_addThree, Nat.lt_sub_iff_add_lt]
    simp only [shiftIn, h.mapIdx_addThree, hlast]
  rw [hscratch]
  apply ext_getElem?
  intro k
  rcases Nat.lt_or_ge k scratchSize with hk | hk
  · have hlen : k < (digits scratchSize n).length := by rwa [length_digits]
    rw [getElem_double hlen, getElem?_mapIdx, getElem?_map, getElem?_eq_getElem hlen,
      Option.map_some, Option.map_some, ← getD_eq_getElem _ 0 hlen]
    apply congrArg some
    split
    · exact shift_addThree (getD_digits_lt _ _ _) (carry_le hbit _)
    · next hfront =>
        -- both this digit and the next one are in front, or the next one does not carry
        rw [hsmin] at hfront
        have hfront' : k < s.smin := by split at hfront <;> omega
        have hzero := h.getD_eq_zero hfront'
        have hnext : (digits scratchSize n).getD (k + 1) 0 < 5 := by
          by_cases hlast : k + 1 = s.smin
          · rw [hlast]
            split at hfront <;> omega
          · rw [h.getD_eq_zero (by omega)]
            decide
        have hk' : k + 1 < scratchSize := by
          have hsmin_le := h.smin_le
          simp only [scratchSize] at hsmin_le ⊢
          omega
        rw [hzero, carry_digits, if_pos hk', if_neg (Nat.not_le.mpr hnext)]
        rfl
  · rw [getElem?_eq_none (by simpa using hk), getElem?_eq_none (by simpa using hk)]

theorem Holds.shiftIn (h : s.Holds n) (hbit : bit ≤ 1) (hlt : 2 * n + bit < 10 ^ scratchSize) :
    (s.shiftIn bit).Holds (2 * n + bit) where
  scratch := by rw [h.scratch_shiftIn hbit, double_digits hbit hlt]
  smin_le := by
    have hsmin_le := h.smin_le
    rw [h.smin_shiftIn]
    split <;> omega
  lt := by
    have hsmin_le := h.smin_le
    have hn := h.lt
    have hsplit : scratchSize - s.smin = scratchSize - 1 - s.smin + 1 := by
      simp only [scratchSize] at *
      omega
    rw [h.smin_shiftIn, getD_digits (by simp only [scratchSize] at *; omega)]
    rw [hsplit, pow_succ] at hn
    split
    · next hcarry =>
        by_cases hzero : s.smin = 0
        · -- the number is too small for a carry out of all digits
          exfalso
          rw [hzero] at hcarry
          simp only [scratchSize] at *
          omega
        · rw [show scratchSize - (s.smin - 1) = scratchSize - 1 - s.smin + 1 + 1 by
            simp only [scratchSize] at *; omega, pow_succ, pow_succ]
          omega
    · next hcarry =>
        rw [hsplit, pow_succ]
        have hdigit : n / 10 ^ (scratchSize - 1 - s.smin) < 10 := by
          rw [Nat.div_lt_iff_lt_mul (Nat.pos_of_ne_zero (by positivity))]
          omega
        rw [Nat.mod_eq_of_lt hdigit, Nat.not_le, Nat.div_lt_iff_lt_mul (by positivity)] at hcarry
        omega

theorem Holds.foldl_shiftIn {bits : List Nat} (h : s.Holds n) (hbits : ∀ bit ∈ bits, bit ≤ 1)
    (hlt : bits.foldl (fun n bit => 2 * n + bit) n < 10 ^ scratchSize) :
    (bits.foldl (fun s bit => s.shiftIn bit) s).Holds (bits.foldl (fun n bit => 2 * n + bit) n) := by
  induction bits generalizing s n with
  | nil => exact h
  | cons bit bits ih =>
    have hgrows : ∀ (l : List Nat) (m : Nat), m ≤ l.foldl (fun n bit => 2 * n + bit) m := by
      intro l
      induction l with
      | nil => exact fun m => Nat.le_refl m
      | cons b l ihl =>
        intro m
        exact Nat.le_trans (by omega) (ihl (2 * m + b))
    have hstep := h.shiftIn (hbits bit mem_cons_self) (lt_of_le_of_lt (hgrows bits _) hlt)
    exact ih hstep (fun b hb => hbits b (mem_cons_of_mem bit hb)) hlt

theorem holds_initial : initial.Holds 0 where
  scratch := (digits_zero scratchSize).symm
  smin_le := Nat.le_refl _
  lt := by decide

end Scratch

theorem bitsOf_le {byte : UInt8} (h : bit ∈ bitsOf byte) : bit ≤ 1 := by
  obtain ⟨j, -, rfl⟩ := mem_map.mp h
  split <;> omega

theorem foldl_bitsOf (byte : UInt8) (n : Nat) :
    (bitsOf byte).foldl (fun n bit => 2 * n + bit) n = 256 * n + byte.toNat := by
  have hlinear : ∀ (l : List Nat) (m : Nat),
      l.foldl (fun n bit => 2 * n + bit) m = 2 ^ l.length * m + l.foldl (fun n bit => 2 * n + bit) 0 := by
    intro l
    induction l with
    | nil => intro m; simp
    | cons b l ih =>
      intro m
      rw [foldl_cons, foldl_cons, ih (2 * m + b), ih (2 * 0 + b), length_cons, pow_succ]
      ring
  have hzero : ∀ k : Fin 256,
      (bitsOf (UInt8.ofNat k.val)).foldl (fun n bit => 2 * n + bit) 0 = k.val := by decide +kernel
  have hbyte := hzero ⟨byte.toNat, byte.toNat_lt⟩
  rw [UInt8.ofNat_toNat] at hbyte
  rw [hlinear, hbyte, show (bitsOf byte).length = 8 from rfl]
  rfl

theorem foldl_flatMap_bitsOf (amount : Bytes) :
    (amount.flatMap bitsOf).foldl (fun n bit => 2 * n + bit) 0 = beNat amount := by
  induction amount using reverseRecOn with
  | nil => rfl
  | append_singleton amount byte ih =>
    rw [flatMap_append, foldl_append, ih, flatMap_singleton, foldl_bitsOf]
    simp [beNat, leNat]
    ring

theorem ofAmount_scratch {amount : Bytes} (h : amount.length = 8) :
    (Scratch.ofAmount amount).scratch = digits scratchSize (beNat amount) := by
  have hlt : beNat amount < 10 ^ scratchSize := by
    have hbound := leNat_lt amount.reverse
    rw [length_reverse, h] at hbound
    exact lt_of_lt_of_le hbound (by decide)
  rw [← foldl_flatMap_bitsOf] at hlt ⊢
  apply (Scratch.holds_initial.foldl_shiftIn _ hlt).scratch
  intro bit hbit
  obtain ⟨byte, -, hbyte⟩ := mem_flatMap.mp hbit
  exact bitsOf_le hbyte

theorem leadingText_true (ds : List Nat) : leadingText ds true = ds.map digitChar := by
  induction ds with
  | nil => rfl
  | cons d ds ih => simp [leadingText, ih]

theorem leadingText_false (ds : List Nat) : leadingText ds false = (ds.dropWhile (· = 0)).map digitChar := by
  induction ds with
  | nil => rfl
  | cons d ds ih =>
    by_cases hd : d = 0
    · simp [leadingText, hd, ih]
    · simp [leadingText, hd, leadingText_true]

theorem trailingText_true (ds : List Nat) : trailingText ds true = (trimEnd ds).map digitChar := by
  induction ds with
  | nil => rfl
  | cons d ds ih =>
    rw [trailingText, trimEnd]
    split
    · rfl
    · simp [ih]

theorem trailingText_false (ds : List Nat) :
    trailingText ds false = if trimEnd ds ≠ [] then text "." ++ (trimEnd ds).map digitChar else [] := by
  cases ds with
  | nil => rfl
  | cons d ds =>
    rw [trailingText, trimEnd]
    split
    · rfl
    · simp [trailingText_true]

theorem integral_text {number : Nat} (h : number < 10 ^ 13) :
    (if leadingText (digits 13 number) false = [] then text "0" else leadingText (digits 13 number) false) =
      (digits (nDigits number) number).map digitChar := by
  by_cases hzero : number = 0
  · subst hzero
    decide
  · -- with seven more zeros in front, these are the twenty digits that are counted
    have hfront : digits 20 number = replicate 7 0 ++ digits 13 number := by
      rw [digits_append 7 13, Nat.div_eq_of_lt h, digits_zero]
    have hdrop := @dropWhile_digits 20 number (Nat.pos_of_ne_zero hzero) (lt_of_lt_of_le h (by decide))
    change _ = digits (nDigits number) number at hdrop
    rw [hfront, dropWhile_append_of_pos (by simp)] at hdrop
    rw [leadingText_false, hdrop, if_neg]
    intro hnil
    have hlen := congrArg length hnil
    rw [length_map, length_digits] at hlen
    exact absurd hlen (nDigits_pos number).ne'

theorem convertHexAmountToDisplayable_eq {bytes : Bytes} (h : bytes.length = 8) {amount : UInt64}
    (hvalue : beNat bytes = amount.toNat) :
    convertHexAmountToDisplayable bytes = amountText (integralDigits amount) (decimalDigits amount) := by
  have hsplit : digits scratchSize amount.toNat =
      digits 13 (amount.toNat / 10 ^ 8) ++ digits 8 amount.toNat := digits_append 13 8 _
  have htake : (digits scratchSize amount.toNat).take 13 = digits 13 (amount.toNat / 10 ^ 8) := by
    rw [hsplit, take_left' (length_digits _ _)]
  have hdrop : ((digits scratchSize amount.toNat).drop 13).take 8 = digits 8 (amount.toNat % 10 ^ 8) := by
    rw [hsplit, drop_left' (length_digits _ _), take_of_length_le (by rw [length_digits]), digits_mod]
  unfold convertHexAmountToDisplayable
  simp only [ofAmount_scratch h, hvalue, htake, hdrop]
  rw [integral_text (lt_of_lt_of_le (integral_lt amount) (by decide)), trailingText_false]
  rfl

/-- **Both printers give the canonical text of the amount.** -/
theorem printableAmount_eq_formatSatsAmount (coin : Coin) (amount : UInt64) {bytes : Bytes}
    (hlen : bytes.length ≤ 8) (hvalue : beNat bytes = amount.toNat) :
    handleGetPrintableAmount coin.coinidShort bytes = some (formatSatsAmount false coin.coinidShort amount) ∧
      ∃ s integral decimals, formatSatsAmount false coin.coinidShort amount =
          coin.coinidShort ++ text " " ++ s ∧
        CanonicalAmount amount.toNat s integral decimals := by
  have hpadded : beNat (replicate (8 - bytes.length) 0 ++ bytes) = amount.toNat := by
    rw [beNat_replicate_zero_append, hvalue]
  have hconvert := convertHexAmountToDisplayable_eq
    (show (replicate (8 - bytes.length) 0 ++ bytes).length = 8 by simp; omega) hpadded
  constructor
  · rw [handleGetPrintableAmount, if_neg (Nat.not_lt.mpr hlen), hconvert, formatSatsAmount_eq]
  · exact ⟨_, _, _, formatSatsAmount_eq coin amount, canonicalAmount amount⟩

theorem printableAmount_eq_formatSatsAmount_oneAndAHalf :
    handleGetPrintableAmount Coin.bitcoin.coinidShort [0x08, 0xF0, 0xD1, 0x80] =
      some (formatSatsAmount false Coin.bitcoin.coinidShort 150000000) :=
  (printableAmount_eq_formatSatsAmount .bitcoin 150000000 (by decide) (by decide)).1

end LedgerBabylon
