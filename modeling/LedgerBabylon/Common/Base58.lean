import LedgerBabylon.Common.Policy
import LedgerBabylon.Lib.Endian
import Mathlib.Data.List.GetD
import Mathlib.Data.List.TakeWhile
import Mathlib.Data.Nat.Digits.Defs

/-!
# Base 58

The encoder multiplies the digits by 256 and adds a byte, for one byte after the other. A pass over the
digits ends early once it is beyond the place where the previous pass ended and nothing is carried. The
digits are listed from the end of the buffer, so that the first one is the least significant.
-/

namespace LedgerBabylon

open List Endian

variable {done outLen : Nat} {state : List Nat × Nat} {α : Type}

def base58Alphabet : Bytes := text "123456789ABCDEFGHJKLMNPQRSTUVWXYZabcdefghijkmnopqrstuvwxyz"

def maxEncInputSize : Nat := 120

/-- A pass over the digits from a place on: the new digits and where it ends. After a pass that ended at
the front of the buffer the index before that place wraps around. -/
def base58Pass (outputSize stopAt : Nat) : Nat → Nat → List Nat → List Nat × Nat
  | place, _, [] => ([], place)
  | place, carry, digit :: digits =>
    let carry := carry + 256 * digit
    if (outputSize ≤ stopAt + 1 ∨ stopAt < place) ∧ carry / 58 = 0 then (carry % 58 :: digits, place)
    else
      let (rest, end_) := base58Pass outputSize stopAt (place + 1) (carry / 58) digits
      (carry % 58 :: rest, end_)

def base58Passes (outputSize : Nat) : Bytes → List Nat × Nat → List Nat × Nat
  | [], state => state
  | byte :: bytes, (digits, stopAt) =>
    base58Passes outputSize bytes (base58Pass outputSize stopAt 0 byte.toNat digits)

def base58OutputSize (size : Nat) : Nat := size * 138 / 100 + 1

def base58Encode (input : Bytes) (outLen : Nat) : Option Bytes :=
  if maxEncInputSize < input.length then none
  else
    let zeroCount := (input.takeWhile (· = 0)).length
    let outputSize := base58OutputSize (input.length - zeroCount)
    let (buffer, _) := base58Passes outputSize (input.drop zeroCount) (replicate outputSize 0, 0)
    let digits := buffer.reverse.dropWhile (· = 0)
    if outLen < zeroCount + digits.length then none
    else some ((replicate zeroCount 0 ++ digits).map (base58Alphabet.getD · 0))

structure PassResult (place last value : Nat) (digits : List Nat) (result : List Nat × Nat) : Prop where
  length : result.1.length = digits.length
  lt : ∀ d ∈ result.1, d < 58
  ofDigits : Nat.ofDigits 58 result.1 = value
  le_end : place ≤ result.2
  end_le : result.2 ≤ last
  zeroes : ∀ i, result.2 < place + i → result.1.getD i 0 = 0

theorem ofDigits_of_zeroes {b : Nat} {digits : List Nat} (h : ∀ i, digits.getD i 0 = 0) :
    Nat.ofDigits b digits = 0 := by
  induction digits with
  | nil => rfl
  | cons d digits ih =>
    have hd : d = 0 := h 0
    rw [Nat.ofDigits_cons, hd, ih fun i => h (i + 1)]
    rfl

/-- A pass computes `256 * n + byte`, if the digits after the end of the previous pass are zero. -/
theorem base58Pass_spec {outputSize stopAt last : Nat} (hstop : stopAt + 1 < outputSize)
    (hlast : stopAt < last) {place carry : Nat} {digits : List Nat} (hplace : place ≤ last)
    (hlen : last < place + digits.length) (hlt : ∀ d ∈ digits, d < 58)
    (hzero : ∀ i, stopAt < place + i → digits.getD i 0 = 0)
    (hvalue : carry + 256 * Nat.ofDigits 58 digits < 58 ^ (last + 1 - place)) :
    PassResult place last (carry + 256 * Nat.ofDigits 58 digits) digits
      (base58Pass outputSize stopAt place carry digits) := by
  induction digits generalizing place carry with
  | nil => exact absurd hlen (by simpa using hplace)
  | cons d digits ih =>
    have hmod := Nat.div_add_mod (carry + 256 * d) 58
    have hsmall : (carry + 256 * d) % 58 < 58 := Nat.mod_lt _ (by decide)
    rw [Nat.ofDigits_cons] at hvalue ⊢
    rw [base58Pass]
    split_ifs with hend
    · -- the digits that are left are zero
      have hafter : stopAt < place := hend.1.resolve_left (by omega)
      have hrest : Nat.ofDigits 58 digits = 0 := ofDigits_of_zeroes fun i => hzero (i + 1) (by omega)
      refine ⟨rfl, ?_, ?_, Nat.le_refl _, hplace, ?_⟩
      · intro e he
        rcases mem_cons.mp he with rfl | he
        · exact hsmall
        · exact hlt e (mem_cons_of_mem _ he)
      · rw [Nat.ofDigits_cons, hrest]
        omega
      · intro i hi
        obtain ⟨i, rfl⟩ : ∃ j, i = j + 1 := ⟨i - 1, by simp only at hi; omega⟩
        exact hzero (i + 1) (by omega)
    · -- the last place always ends the pass
      have hnext : place + 1 ≤ last := by
        by_contra hcontra
        obtain rfl : place = last := by omega
        rw [Nat.add_sub_cancel_left, pow_one] at hvalue
        exact hend ⟨.inr hlast, Nat.div_eq_of_lt (by omega)⟩
      have hpow : 58 ^ (last + 1 - place) = 58 * 58 ^ (last + 1 - (place + 1)) := by
        rw [← pow_succ']
        congr 1
        omega
      have hresult := @ih (place + 1) ((carry + 256 * d) / 58) hnext
        (by rw [length_cons] at hlen; omega) (fun e he => hlt e (mem_cons_of_mem _ he))
        (fun i hi => hzero (i + 1) (by omega)) (by omega)
      refine ⟨congrArg (· + 1) hresult.length, ?_, ?_, ?_, hresult.end_le, ?_⟩
      · intro e he
        rcases mem_cons.mp he with rfl | he
        · exact hsmall
        · exact hresult.lt e he
      · rw [Nat.ofDigits_cons, hresult.ofDigits]
        omega
      · exact Nat.le_of_succ_le hresult.le_end
      · intro i hi
        have hle := hresult.le_end
        obtain ⟨i, rfl⟩ : ∃ j, i = j + 1 := ⟨i - 1, by simp only at hi; omega⟩
        exact hresult.zeroes i (by simp only at hi; omega)

theorem pow_le_pow_outputSize (n : Nat) : 256 ^ n ≤ 58 ^ base58OutputSize n := by
  have hbase : 256 ^ 100 ≤ 58 ^ 138 := by norm_num
  rw [← Nat.pow_le_pow_iff_left (show 100 ≠ 0 by decide)]
  calc (256 ^ n) ^ 100 = (256 ^ 100) ^ n := by rw [← pow_mul, ← pow_mul, Nat.mul_comm]
    _ ≤ (58 ^ 138) ^ n := Nat.pow_le_pow_left hbase n
    _ = 58 ^ (138 * n) := by rw [← pow_mul]
    _ ≤ 58 ^ (base58OutputSize n * 100) := by
        apply Nat.pow_le_pow_right (by decide)
        unfold base58OutputSize
        omega
    _ = (58 ^ base58OutputSize n) ^ 100 := by rw [pow_mul]

structure PassesState (outputSize done value : Nat) (state : List Nat × Nat) : Prop where
  length : state.1.length = outputSize
  lt : ∀ d ∈ state.1, d < 58
  ofDigits : Nat.ofDigits 58 state.1 = value
  value_lt : value < 256 ^ done
  stop_le : state.2 ≤ done * 138 / 100
  zeroes : ∀ i, state.2 < i → state.1.getD i 0 = 0

theorem PassesState.pass {size value : Nat}
    (h : PassesState (base58OutputSize size) done value state) (hdone : done < size) (byte : UInt8) :
    PassesState (base58OutputSize size) (done + 1) (byte.toNat + 256 * value)
      (base58Pass (base58OutputSize size) state.2 0 byte.toNat state.1) := by
  have hbyte := byte.toNat_lt
  have hstop := h.stop_le
  have hvalue : byte.toNat + 256 * value < 256 ^ (done + 1) := by
    have := h.value_lt
    rw [pow_succ]
    omega
  have hresult := @base58Pass_spec (base58OutputSize size) state.2 ((done + 1) * 138 / 100)
    (by unfold base58OutputSize; omega) (by omega) 0 byte.toNat state.1 (Nat.zero_le _)
    (by rw [h.length, base58OutputSize]; omega) h.lt (fun i hi => h.zeroes i (by omega))
    (by rw [h.ofDigits]; exact hvalue.trans_le (pow_le_pow_outputSize (done + 1)))
  refine ⟨hresult.length.trans h.length, hresult.lt, ?_, hvalue, hresult.end_le, fun i hi => ?_⟩
  · rw [hresult.ofDigits, h.ofDigits]
  · exact hresult.zeroes i (by omega)

theorem PassesState.passes {size : Nat} {before bytes : Bytes}
    (h : PassesState (base58OutputSize size) done (beNat before) state)
    (hsize : done + bytes.length = size) :
    PassesState (base58OutputSize size) size (beNat (before ++ bytes))
      (base58Passes (base58OutputSize size) bytes state) := by
  induction bytes generalizing before done state with
  | nil =>
    obtain rfl : done = size := hsize
    rw [append_nil]
    exact h
  | cons byte bytes ih =>
    rw [length_cons] at hsize
    have hpass := h.pass (by omega) byte
    have hvalue : byte.toNat + 256 * beNat before = beNat (before ++ [byte]) := by
      rw [beNat_append]
      simp [beNat, leNat]
      ring
    rw [hvalue] at hpass
    rw [append_cons]
    exact ih hpass (by omega)

theorem map_getD_injective {alphabet : Bytes} (hnodup : alphabet.Nodup) {ds es : List Nat}
    (hds : ∀ d ∈ ds, d < alphabet.length) (hes : ∀ e ∈ es, e < alphabet.length)
    (h : ds.map (alphabet.getD · 0) = es.map (alphabet.getD · 0)) : ds = es := by
  have hleft : ∀ cs : List Nat, (∀ c ∈ cs, c < alphabet.length) →
      (cs.map (alphabet.getD · 0)).map alphabet.idxOf = cs := by
    intro cs hcs
    rw [map_map]
    conv_rhs => rw [← map_id cs]
    apply map_congr_left
    intro c hc
    rw [Function.comp_apply, getD_eq_getElem _ _ (hcs c hc), hnodup.idxOf_getElem, id]
  rw [← hleft ds hds, h, hleft es hes]

/-- The text of an encoding: digits for the number of the input, after one zero digit for each zero
byte at the front. -/
structure Base58Text (input text : Bytes) (zeroCount : Nat) (digits : List Nat) : Prop where
  text_eq : text = (replicate zeroCount 0 ++ digits).map (base58Alphabet.getD · 0)
  lt : ∀ d ∈ digits, d < 58
  ofDigits : Nat.ofDigits 58 digits.reverse = beNat input
  zeroCount_eq : zeroCount = (input.takeWhile (· = 0)).length
  head_ne : digits.head? ≠ some 0

namespace Base58Text

variable {input text : Bytes} {zeroCount : Nat} {digits : List Nat}

theorem all_lt (h : Base58Text input text zeroCount digits) :
    ∀ d ∈ replicate zeroCount 0 ++ digits, d < base58Alphabet.length := by
  intro d hd
  rcases mem_append.mp hd with hd | hd
  · rw [(mem_replicate.mp hd).2]
    decide
  · exact h.lt d hd

theorem ofDigits_all (h : Base58Text input text zeroCount digits) :
    Nat.ofDigits 58 (replicate zeroCount 0 ++ digits).reverse = beNat input := by
  rw [reverse_append, reverse_replicate, Nat.ofDigits_append_replicate_zero, h.ofDigits]

theorem first_digit (h : Base58Text input text zeroCount digits) {lo hi e : Nat} (hlo : 1 ≤ lo)
    (hhi : hi ≤ 58) (hle : lo * 58 ^ e ≤ beNat input) (hlt : beNat input < hi * 58 ^ e) :
    ∃ d rest, digits = d :: rest ∧ lo ≤ d ∧ d < hi := by
  have hpos : 0 < 58 ^ e := by positivity
  rw [← h.ofDigits] at hle hlt
  cases hdigits : digits with
  | nil =>
    rw [hdigits, reverse_nil, Nat.ofDigits_nil] at hle
    exact absurd hle (by simp; omega)
  | cons d rest =>
    have hd : 1 ≤ d := by
      have hhead := h.head_ne
      rw [hdigits, head?_cons, ne_eq, Option.some.injEq] at hhead
      omega
    have hd' : d < 58 := h.lt d (hdigits ▸ mem_cons_self)
    have hrest : Nat.ofDigits 58 rest.reverse < 58 ^ rest.length := by
      rw [← length_reverse]
      exact Nat.ofDigits_lt_base_pow_length (by decide)
        fun x hx => h.lt x (hdigits ▸ mem_cons_of_mem _ (mem_reverse.mp hx))
    rw [hdigits, reverse_cons, Nat.ofDigits_append, Nat.ofDigits_singleton,
      length_reverse, Nat.mul_comm (58 ^ _) d] at hle hlt
    refine ⟨d, rest, rfl, ?_⟩
    -- the number of digits is right
    have hlen : rest.length = e := by
      rcases Nat.lt_trichotomy rest.length e with hlen | hlen | hlen
      · have hpow : 58 * 58 ^ rest.length ≤ 58 ^ e := by
          rw [← pow_succ']
          exact Nat.pow_le_pow_right (by decide) hlen
        have hupper : (d + 1) * 58 ^ rest.length ≤ 58 * 58 ^ rest.length := Nat.mul_le_mul_right _ hd'
        have hlower : 1 * 58 ^ e ≤ lo * 58 ^ e := Nat.mul_le_mul_right _ hlo
        rw [Nat.succ_mul] at hupper
        omega
      · exact hlen
      · have hpow : 58 * 58 ^ e ≤ 58 ^ rest.length := by
          rw [← pow_succ']
          exact Nat.pow_le_pow_right (by decide) hlen
        have hupper : hi * 58 ^ e ≤ 58 * 58 ^ e := Nat.mul_le_mul_right _ hhi
        have hlower : 1 * 58 ^ rest.length ≤ d * 58 ^ rest.length := Nat.mul_le_mul_right _ hd
        omega
    rw [hlen] at hle hlt hrest
    constructor
    · by_contra hcontra
      have hless : (d + 1) * 58 ^ e ≤ lo * 58 ^ e := Nat.mul_le_mul_right _ (by omega)
      rw [Nat.succ_mul] at hless
      omega
    · by_contra hcontra
      have hmore : hi * 58 ^ e ≤ d * 58 ^ e := Nat.mul_le_mul_right _ (by omega)
      omega

end Base58Text

theorem takeWhile_eq_replicate [DecidableEq α] (a : α) (l : List α) :
    l.takeWhile (· = a) = replicate (l.takeWhile (· = a)).length a := by
  refine eq_replicate_of_mem fun b hb => ?_
  simpa using mem_takeWhile_imp hb

theorem head?_dropWhile_ne [DecidableEq α] (a : α) (l : List α) : (l.dropWhile (· = a)).head? ≠ some a := by
  intro hhead
  have hnot := head?_dropWhile_not (· = a) l
  rw [hhead] at hnot
  simp at hnot

theorem takeWhile_replicate_append [DecidableEq α] (a : α) (n : Nat) {l : List α}
    (h : l.head? ≠ some a) : (replicate n a ++ l).takeWhile (· = a) = replicate n a := by
  rw [takeWhile_append_of_pos fun b hb => by simpa using eq_of_mem_replicate hb]
  cases l with
  | nil => simp
  | cons b l =>
    have hb : b ≠ a := fun hb => h (congrArg some hb)
    simp [hb]

theorem base58Passes_spec (input : Bytes) :
    PassesState (base58OutputSize (input.length - (input.takeWhile (· = 0)).length))
      (input.length - (input.takeWhile (· = 0)).length) (beNat input)
      (base58Passes (base58OutputSize (input.length - (input.takeWhile (· = 0)).length))
        (input.drop (input.takeWhile (· = 0)).length)
        (replicate (base58OutputSize (input.length - (input.takeWhile (· = 0)).length)) 0, 0)) := by
  have hsplit := takeWhile_append_dropWhile (p := (· = (0 : UInt8))) (l := input)
  rw [takeWhile_eq_replicate] at hsplit
  generalize (input.takeWhile (· = 0)).length = zeroCount at hsplit ⊢
  have hdrop : input.drop zeroCount = input.dropWhile (· = 0) := by
    nth_rewrite 1 [← hsplit]
    exact drop_left' length_replicate
  have hinput : beNat input = beNat (input.drop zeroCount) := by
    rw [hdrop, ← beNat_replicate_zero_append zeroCount (input.dropWhile _), hsplit]
  have hstart : PassesState (base58OutputSize (input.length - zeroCount)) 0 (beNat [])
      (replicate (base58OutputSize (input.length - zeroCount)) 0, 0) := by
    refine ⟨length_replicate, ?_, Nat.ofDigits_replicate_zero, by decide, Nat.zero_le _, ?_⟩
    · intro d hd
      rw [(mem_replicate.mp hd).2]
      decide
    · intro i _
      simp
  have hsize : 0 + (input.drop zeroCount).length = input.length - zeroCount := by
    rw [length_drop, Nat.zero_add]
  have hstate := hstart.passes hsize
  rwa [nil_append, ← hinput] at hstate

theorem base58Encode_eq_some {input text : Bytes} (h : base58Encode input outLen = some text) :
    text.length ≤ outLen ∧ ∃ zeroCount digits, Base58Text input text zeroCount digits := by
  unfold base58Encode at h
  dsimp only at h
  split_ifs at h with hlong hfits
  have hstate := base58Passes_spec input
  generalize base58Passes _ _ _ = state at h hfits hstate
  cases h
  -- the zero digits at the front of the buffer do not count
  have hbuffer : state.1 = (state.1.reverse.dropWhile (· = 0)).reverse ++
      replicate (state.1.reverse.takeWhile (· = 0)).length 0 := by
    have hreverse := takeWhile_append_dropWhile (p := (· = 0)) (l := state.1.reverse)
    rw [takeWhile_eq_replicate] at hreverse
    have := congrArg reverse hreverse
    rwa [reverse_append, reverse_replicate, reverse_reverse, eq_comm] at this
  refine ⟨?_, _, state.1.reverse.dropWhile (· = 0), rfl, ?_, ?_, rfl, head?_dropWhile_ne 0 _⟩
  · rw [length_map, length_append, length_replicate]
    exact not_lt.mp hfits
  · intro d hd
    exact hstate.lt d (mem_reverse.mp ((dropWhile_sublist _).subset hd))
  · rw [← hstate.ofDigits]
    nth_rewrite 2 [hbuffer]
    rw [Nat.ofDigits_append_replicate_zero]

theorem exists_base58Encode {input : Bytes} (hlen : input.length ≤ maxEncInputSize) :
    ∃ text, ∀ outLen, base58OutputSize input.length ≤ outLen → base58Encode input outLen = some text := by
  have hstate := base58Passes_spec input
  have hzeroes := (takeWhile_sublist (· = (0 : UInt8)) (l := input)).length_le
  unfold base58Encode
  simp only [if_neg (not_lt.mpr hlen)]
  generalize base58Passes _ _ _ = state at hstate ⊢
  refine ⟨_, fun outLen hout => if_neg ?_⟩
  have hdigits := (dropWhile_sublist (· = 0) (l := state.1.reverse)).length_le
  rw [length_reverse, hstate.length] at hdigits
  unfold base58OutputSize at hdigits hout
  omega

example : base58Encode (beBytes 25 0x00751e76e8199196d454941c45d1b3a323f1433bd6510d1634) 76 =
    some (text "1BgGZ9tcN4rm9KBzDn7KprQz87SZ26SAMH") := by
  decide +kernel

theorem base58Encode_injective {input input' text : Bytes} {outLen' : Nat}
    (hlen : input.length = input'.length) (h : base58Encode input outLen = some text)
    (h' : base58Encode input' outLen' = some text) : input = input' := by
  obtain ⟨-, zeroCount, digits, htext⟩ := base58Encode_eq_some h
  obtain ⟨-, zeroCount', digits', htext'⟩ := base58Encode_eq_some h'
  have hdigits := map_getD_injective (by decide) htext.all_lt htext'.all_lt
    (htext.text_eq.symm.trans htext'.text_eq)
  apply beNat_injective hlen
  rw [← htext.ofDigits_all, ← htext'.ofDigits_all, hdigits]

end LedgerBabylon
