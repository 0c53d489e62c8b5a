import LedgerBabylon.Common.Base58
import LedgerBabylon.Common.KeyInfo
import Mathlib.Data.Nat.Digits.Lemmas

/-!
# Decoding base 58

The decoder divides the digits by 256 again and again. It finds the bytes that the encoder would give
the text for, and there is only one such byte string.
-/

namespace LedgerBabylon

open Endian List

variable {d outLen : Nat} {bytes : Bytes}

def Base58 (bytes text : Bytes) : Prop := ∃ zeroCount digits, Base58Text bytes text zeroCount digits

def base58Number (digits : List Nat) : Nat := Nat.ofDigits 58 digits.reverse

theorem base58Number_cons (d : Nat) (digits : List Nat) :
    base58Number (d :: digits) = d * 58 ^ digits.length + base58Number digits := by
  rw [base58Number, reverse_cons, Nat.ofDigits_append, Nat.ofDigits_singleton, length_reverse, base58Number]
  ring

variable {digits : List Nat}

theorem base58Number_lt (h : ∀ d ∈ digits, d < 58) : base58Number digits < 58 ^ digits.length := by
  rw [base58Number, ← length_reverse]
  exact Nat.ofDigits_lt_base_pow_length (by decide) fun d hd => h d (mem_reverse.mp hd)

theorem base58Divide_spec (hlt : ∀ d ∈ digits, d < 58) {remainder : Nat} (hremainder : remainder < 256) :
    (base58Divide digits remainder).1.length = digits.length ∧
      (∀ d ∈ (base58Divide digits remainder).1, d < 58) ∧ (base58Divide digits remainder).2 < 256 ∧
      256 * base58Number (base58Divide digits remainder).1 + (base58Divide digits remainder).2 =
        remainder * 58 ^ digits.length + base58Number digits := by
  induction digits generalizing remainder with
  | nil => simpa [base58Divide, base58Number] using hremainder
  | cons d digits ih =>
    obtain ⟨hd, hlt⟩ := forall_mem_cons.mp hlt
    have hmod := Nat.div_add_mod (remainder * 58 + d) 256
    obtain ⟨hlen, hdigits, hrest, hnumber⟩ := ih hlt (Nat.mod_lt (remainder * 58 + d) (by decide))
    rw [base58Divide]
    refine ⟨congrArg (· + 1) hlen, ?_, hrest, ?_⟩
    · intro e he
      rcases mem_cons.mp he with rfl | he
      · omega
      · exact hdigits e he
    · dsimp only
      rw [base58Number_cons, base58Number_cons, hlen, length_cons, pow_succ]
      calc 256 * ((remainder * 58 + d) / 256 * 58 ^ digits.length +
            base58Number (base58Divide digits ((remainder * 58 + d) % 256)).1) +
            (base58Divide digits ((remainder * 58 + d) % 256)).2
          = 256 * ((remainder * 58 + d) / 256) * 58 ^ digits.length +
            ((remainder * 58 + d) % 256 * 58 ^ digits.length + base58Number digits) := by
            rw [← hnumber]
            ring
        _ = (256 * ((remainder * 58 + d) / 256) + (remainder * 58 + d) % 256) * 58 ^ digits.length +
            base58Number digits := by ring
        _ = remainder * (58 ^ digits.length * 58) + (d * 58 ^ digits.length + base58Number digits) := by
            rw [hmod]
            ring

theorem base58Divide_zero (hlt : ∀ e ∈ d :: digits, e < 58) :
    ∃ quotient, base58Divide (d :: digits) 0 = (0 :: quotient, base58Number (d :: digits) % 256) ∧
      quotient.length = digits.length ∧ (∀ e ∈ quotient, e < 58) ∧
      base58Number quotient = base58Number (d :: digits) / 256 := by
  obtain ⟨hlen, hdigits, hrest, hnumber⟩ := base58Divide_spec hlt (show 0 < 256 by decide)
  have hd : d < 58 := hlt d mem_cons_self
  have hhead : (0 * 58 + d) / 256 = 0 := by omega
  rw [base58Divide, hhead] at hlen hdigits hrest hnumber ⊢
  simp only [base58Number_cons 0, Nat.zero_mul, Nat.zero_add] at hlen hdigits hrest hnumber ⊢
  refine ⟨_, ?_, Nat.succ.inj hlen, fun e he => hdigits e (mem_cons_of_mem _ he), by omega⟩
  rw [Prod.mk.injEq]
  exact ⟨rfl, by omega⟩

theorem beBytes_succ (n value : Nat) :
    beBytes (n + 1) value = beBytes n (value / 256) ++ [UInt8.ofNat value] := by
  rw [beBytes, leBytes, reverse_cons, beBytes]

theorem base58Remainders_eq {position : Nat} (hlen : digits.length ≤ position)
    (hlt : ∀ d ∈ digits, d < 58) (buffer : Bytes) :
    base58Remainders position digits buffer = beBytes digits.length (base58Number digits) ++ buffer := by
  induction position generalizing digits buffer with
  | zero =>
    obtain rfl : digits = [] := length_eq_zero_iff.mp (Nat.le_zero.mp hlen)
    rfl
  | succ position ih =>
    cases digits with
    | nil => rfl
    | cons d digits =>
      obtain ⟨quotient, hdivide, hquotient, hdigits, hnumber⟩ := base58Divide_zero hlt
      rw [base58Remainders]
      · rw [hdivide]
        simp only [headD_cons, tail_cons, if_true]
        rw [ih (hquotient ▸ Nat.le_of_succ_le_succ hlen) hdigits, hquotient, hnumber,
          length_cons, beBytes_succ, append_assoc, singleton_append]
        congr 2
        rw [← UInt8.toNat_inj]
        simp
      · exact cons_ne_nil d digits

theorem base58Value_eq_some {c : UInt8} (h : base58Value c = some d) :
    base58Alphabet.getD d 0 = c ∧ d < 58 := by
  have hall : ∀ c, (base58Value c).all fun d => base58Alphabet.getD d 0 = c ∧ d < 58 :=
    forall_byte (by decide +kernel)
  simpa [h] using hall c

theorem mapM_base58Value {text : Bytes} (h : text.mapM base58Value = some digits) :
    text = digits.map (base58Alphabet.getD · 0) ∧ ∀ d ∈ digits, d < 58 := by
  induction text generalizing digits with
  | nil =>
    obtain rfl : [] = digits := by simpa using h
    exact ⟨rfl, fun d hd => absurd hd not_mem_nil⟩
  | cons c text ih =>
    simp only [mapM_cons, Option.bind_eq_bind, Option.bind_eq_some_iff, Option.pure_def,
      Option.some.injEq] at h
    obtain ⟨d, hd, rest, hrest, rfl⟩ := h
    obtain ⟨hc, hlt⟩ := base58Value_eq_some hd
    obtain ⟨htext, hall⟩ := ih hrest
    exact ⟨by rw [map_cons, hc, ← htext], forall_mem_cons.mpr ⟨hlt, hall⟩⟩

theorem base58Value_getD (h : d < 58) : base58Value (base58Alphabet.getD d 0) = some d := by
  have hall : ∀ d < 58, base58Value (base58Alphabet.getD d 0) = some d := by decide +kernel
  exact hall d h

theorem mapM_base58Value_eq (h : ∀ d ∈ digits, d < 58) :
    (digits.map (base58Alphabet.getD · 0)).mapM base58Value = some digits := by
  induction digits with
  | nil => rfl
  | cons d digits ih =>
    obtain ⟨hd, hdigits⟩ := forall_mem_cons.mp h
    rw [map_cons, mapM_cons, base58Value_getD hd, ih hdigits]
    rfl

theorem beNat_dropWhile_zero (bytes : Bytes) : beNat (bytes.dropWhile (· = 0)) = beNat bytes := by
  have hsplit := takeWhile_append_dropWhile (p := (· = (0 : UInt8))) (l := bytes)
  rw [takeWhile_eq_replicate] at hsplit
  conv_rhs => rw [← hsplit]
  exact (beNat_replicate_zero_append _ _).symm

theorem base58Text_decoded {text : Bytes}
    (htext : text = digits.map (base58Alphabet.getD · 0)) (hlt : ∀ d ∈ digits, d < 58) :
    Base58Text ((digits.takeWhile (· = 0)).map UInt8.ofNat ++
        (beBytes (digits.dropWhile (· = 0)).length (base58Number (digits.dropWhile (· = 0)))).dropWhile
          (· = 0)) text (digits.takeWhile (· = 0)).length (digits.dropWhile (· = 0)) := by
  have hrest : ∀ d ∈ digits.dropWhile (· = 0), d < 58 := fun d hd => hlt d ((dropWhile_sublist _).subset hd)
  have hzeros : (digits.takeWhile (· = 0)).map UInt8.ofNat =
      replicate (digits.takeWhile (· = 0)).length 0 := by
    nth_rewrite 1 [takeWhile_eq_replicate]
    rw [map_replicate]
    rfl
  have hbound : base58Number (digits.dropWhile (· = 0)) < 256 ^ (digits.dropWhile (· = 0)).length :=
    Nat.lt_of_lt_of_le (base58Number_lt hrest) (Nat.pow_le_pow_left (by decide) _)
  rw [hzeros]
  refine ⟨?_, hrest, ?_, ?_, head?_dropWhile_ne 0 digits⟩
  · rw [← takeWhile_eq_replicate, takeWhile_append_dropWhile, htext]
  · rw [beNat_replicate_zero_append, beNat_dropWhile_zero, beNat, beBytes, reverse_reverse,
      leNat_leBytes, Nat.mod_eq_of_lt hbound]
    rfl
  · rw [takeWhile_replicate_append _ _ (head?_dropWhile_ne 0 _), length_replicate]

theorem base58Decode_eq_some {text : Bytes}
    (h : base58Decode text outLen = some bytes) : Base58 bytes text ∧ bytes.length ≤ outLen := by
  simp only [base58Decode, Option.bind_eq_bind] at h
  split at h
  · simp at h
  · simp only [Option.bind_eq_some_iff] at h
    obtain ⟨digits, hmap, h⟩ := h
    split at h
    · simp at h
    · rename_i hfits
      cases h
      refine ⟨?_, Nat.le_of_not_lt hfits⟩
      obtain ⟨htext, hlt⟩ := mapM_base58Value hmap
      have hdrop : digits.drop (digits.takeWhile (· = 0)).length = digits.dropWhile (· = 0) := by
        conv_lhs =>
          arg 2
          rw [← takeWhile_append_dropWhile (p := (· = 0)) (l := digits)]
        exact drop_left
      have hlen : (digits.dropWhile (· = 0)).length ≤ text.length := by
        rw [htext, length_map]
        exact (dropWhile_sublist _).length_le
      rw [hdrop, base58Remainders_eq hlen fun d hd => hlt d ((dropWhile_sublist _).subset hd), append_nil]
      exact ⟨_, _, base58Text_decoded htext hlt⟩

theorem eq_of_beNat_eq {as bs : Bytes} (has : as.head? ≠ some 0) (hbs : bs.head? ≠ some 0)
    (h : beNat as = beNat bs) : as = bs := by
  -- a shorter one could be padded with zeros
  have hpad {as bs : Bytes} (hbs : bs.head? ≠ some 0) (h : beNat as = beNat bs)
      (hle : as.length ≤ bs.length) : as = bs := by
    have heq : replicate (bs.length - as.length) 0 ++ as = bs := by
      apply beNat_injective
      · rw [length_append, length_replicate]
        omega
      · rw [beNat_replicate_zero_append, h]
    cases hn : bs.length - as.length with
    | zero => simpa [hn] using heq
    | succ n =>
      rw [hn, replicate_succ, cons_append] at heq
      exact absurd (by rw [← heq]; rfl) hbs
  rcases Nat.le_total as.length bs.length with hle | hle
  · exact hpad hbs h hle
  · exact (hpad has h.symm hle).symm

theorem Base58.unique {bytes' text : Bytes} (h : Base58 bytes text)
    (h' : Base58 bytes' text) : bytes = bytes' := by
  obtain ⟨zeroCount, digits, h⟩ := h
  obtain ⟨zeroCount', digits', h'⟩ := h'
  have hdigits := map_getD_injective (by decide) h.all_lt h'.all_lt (h.text_eq.symm.trans h'.text_eq)
  have hcount : zeroCount = zeroCount' := by
    have htake := congrArg (fun l => (takeWhile (· = 0) l).length) hdigits
    simpa [takeWhile_replicate_append _ _ h.head_ne, takeWhile_replicate_append _ _ h'.head_ne] using htake
  have hnumber : beNat bytes = beNat bytes' := by rw [← h.ofDigits_all, ← h'.ofDigits_all, hdigits]
  have hrest := eq_of_beNat_eq (head?_dropWhile_ne 0 bytes) (head?_dropWhile_ne 0 bytes')
    (by rw [beNat_dropWhile_zero, beNat_dropWhile_zero, hnumber])
  rw [← takeWhile_append_dropWhile (p := (· = (0 : UInt8))) (l := bytes),
    ← takeWhile_append_dropWhile (p := (· = (0 : UInt8))) (l := bytes'), hrest,
    takeWhile_eq_replicate 0 bytes, takeWhile_eq_replicate 0 bytes', ← h.zeroCount_eq, ← h'.zeroCount_eq,
    hcount]

theorem base58Decode_eq_some_iff {text : Bytes} (hlen : 2 ≤ text.length)
    (hmax : text.length ≤ maxDecInputSize) :
    base58Decode text outLen = some bytes ↔ Base58 bytes text ∧ bytes.length ≤ outLen := by
  refine ⟨base58Decode_eq_some, fun ⟨hbytes, hfits⟩ => ?_⟩
  obtain ⟨zeroCount, digits, h⟩ := hbytes
  -- with enough room there is a result, which is the only one
  have hsome : ∃ room bytes', base58Decode text room = some bytes' ∧
      base58Decode text outLen = if outLen < bytes'.length then none else some bytes' := by
    have hmap := mapM_base58Value_eq h.all_lt
    rw [← h.text_eq] at hmap
    simp only [base58Decode, Option.bind_eq_bind, hmap, Option.bind_some,
      if_neg (show ¬(maxDecInputSize < text.length ∨ text.length < 2) by omega)]
    exact ⟨_, _, if_neg (Nat.lt_irrefl _), rfl⟩
  obtain ⟨room, bytes', hroom, hout⟩ := hsome
  obtain rfl := (base58Decode_eq_some hroom).1.unique ⟨zeroCount, digits, h⟩
  rw [hout, if_neg (Nat.not_lt.mpr hfits)]

/-- The number of the bytes in base 58, with a `1` in front for each zero byte at the front. -/
def base58Numeral (bytes : Bytes) : Bytes := List.replicate (bytes.takeWhile (· = 0)).length 0x31
    ++ (Nat.digits 58 (beNat bytes)).reverse.map (base58Alphabet.getD · 0)

theorem Base58Text.eq_numeral {text : Bytes} {zeroCount : Nat}
    (h : Base58Text bytes text zeroCount digits) : text = base58Numeral bytes := by
  have hlt : ∀ d ∈ digits.reverse, d < 58 := fun d hd => h.lt d (mem_reverse.mp hd)
  have hlast : ∀ hne : digits.reverse ≠ [], digits.reverse.getLast hne ≠ 0 := by
    intro hne hzero
    rw [getLast_reverse] at hzero
    exact h.head_ne (by rw [head?_eq_some_head (by simpa using hne), hzero])
  have hdigits : Nat.digits 58 (beNat bytes) = digits.reverse := by
    rw [← h.ofDigits]
    exact Nat.digits_ofDigits 58 (by decide) _ hlt hlast
  rw [base58Numeral, hdigits, reverse_reverse, ← h.zeroCount_eq, h.text_eq, map_append, map_replicate]
  rfl

theorem Base58.eq_numeral {text : Bytes} (h : Base58 bytes text) : text = base58Numeral bytes := by
  obtain ⟨zeroCount, digits, h⟩ := h
  exact h.eq_numeral

/-- The encoder needs room for the numeral and nothing more. -/
theorem base58Encode_eq {input : Bytes} (hlen : input.length ≤ maxEncInputSize) (outLen : Nat) :
    base58Encode input outLen =
      if outLen < (base58Numeral input).length then none else some (base58Numeral input) := by
  -- the text does not depend on the room
  have hsome : ∃ text, ∀ outLen, base58Encode input outLen =
      if outLen < text.length then none else some text := by
    unfold base58Encode
    simp only [if_neg (Nat.not_lt.mpr hlen)]
    generalize base58Passes _ _ _ = state
    refine ⟨(replicate (input.takeWhile (· = 0)).length 0
      ++ state.1.reverse.dropWhile (· = 0)).map (base58Alphabet.getD · 0), fun outLen => ?_⟩
    rw [length_map, length_append, length_replicate]
  obtain ⟨text, htext⟩ := hsome
  have hfits := (htext text.length).trans (if_neg (Nat.lt_irrefl _))
  obtain ⟨-, hbase58⟩ := base58Encode_eq_some hfits
  rw [htext, Base58.eq_numeral hbase58]

/-- The decoder's limit is above that of the encoder. -/
theorem length_base58Numeral_le {input : Bytes} (hlen : input.length ≤ maxEncInputSize) :
    (base58Numeral input).length ≤ maxDecInputSize := by
  have hsplit := congrArg length (takeWhile_append_dropWhile (p := (· = (0 : UInt8))) (l := input))
  rw [length_append] at hsplit
  have hnumber : beNat input < 256 ^ (input.dropWhile (· = 0)).length := by
    rw [← beNat_dropWhile_zero, beNat, ← length_reverse]
    exact leNat_lt _
  generalize (input.dropWhile (· = 0)).length = n at hsplit hnumber
  have hn : n ≤ 120 := by
    rw [maxEncInputSize] at hlen
    omega
  have hpow : 256 ^ n ≤ 58 ^ (n + 44) := by
    apply Nat.le_of_mul_le_mul_right _ (Nat.pow_pos (show 0 < 58 by decide) : 0 < 58 ^ (120 - n))
    calc 256 ^ n * 58 ^ (120 - n) ≤ 256 ^ n * 256 ^ (120 - n) :=
          Nat.mul_le_mul_left _ (Nat.pow_le_pow_left (by decide) _)
      _ = 256 ^ 120 := by rw [← pow_add, Nat.add_sub_cancel' hn]
      _ ≤ 58 ^ 164 := by norm_num
      _ = 58 ^ (n + 44) * 58 ^ (120 - n) := by rw [← pow_add, show n + 44 + (120 - n) = 164 by omega]
  have hdigits := (Nat.digits_length_le_iff (by decide) (beNat input)).mpr (hnumber.trans_le hpow)
  rw [base58Numeral, length_append, length_replicate, length_map, length_reverse]
  rw [maxEncInputSize] at hlen
  rw [maxDecInputSize]
  omega

theorem base58_numeral (hlen : bytes.length ≤ maxEncInputSize) : Base58 bytes (base58Numeral bytes) :=
  (base58Encode_eq_some ((base58Encode_eq hlen _).trans (if_neg (Nat.lt_irrefl _)))).2

theorem mem_alphabet_of_base58Decode {text : Bytes}
    (h : base58Decode text outLen = some bytes) : ∀ c ∈ text, c ∈ base58Alphabet := by
  obtain ⟨⟨zeroCount, digits, htext⟩, -⟩ := base58Decode_eq_some h
  intro c hc
  rw [htext.text_eq, mem_map] at hc
  obtain ⟨d, hd, rfl⟩ := hc
  rw [getD_eq_getElem _ _ (htext.all_lt d hd)]
  exact getElem_mem _

/-- **Base 58 is exact.** The encoder gives the numeral of its input, and the decoder gives the input
back; what the decoder accepts is in the alphabet and is the numeral of what it returns. -/
theorem base58_exact : (∀ (input : Bytes) (outLen : Nat), input.length ≤ maxEncInputSize →
        (base58Numeral input).length ≤ outLen →
        base58Encode input outLen = some (base58Numeral input)
          ∧ (2 ≤ (base58Numeral input).length → ∀ room, input.length ≤ room →
            base58Decode (base58Numeral input) room = some input))
      ∧ ∀ (text bytes : Bytes) (room : Nat), base58Decode text room = some bytes →
        (∀ c ∈ text, c ∈ base58Alphabet) ∧ text = base58Numeral bytes
          ∧ (bytes.length ≤ maxEncInputSize → base58Encode bytes text.length = some text) := by
  refine ⟨fun input outLen hlen hfits => ⟨?_, fun htwo room hroom => ?_⟩, fun text bytes room h => ?_⟩
  · rw [base58Encode_eq hlen, if_neg (Nat.not_lt.mpr hfits)]
  · exact (base58Decode_eq_some_iff htwo (length_base58Numeral_le hlen)).mpr ⟨base58_numeral hlen, hroom⟩
  · have htext := (base58Decode_eq_some h).1.eq_numeral
    refine ⟨mem_alphabet_of_base58Decode h, htext, fun hlen => ?_⟩
    rw [base58Encode_eq hlen, ← htext, if_neg (Nat.lt_irrefl _)]

theorem base58_exact_zeroAndOne : base58Encode [0, 1] 2 = some (base58Numeral [0, 1])
      ∧ base58Decode (base58Numeral [0, 1]) 2 = some [0, 1]
      ∧ text "12" = base58Numeral [0, 1] := by
  have hlen : (base58Numeral [0, 1]).length = 2 := by
    simp [base58Numeral, beNat, leNat]
  have hencode := base58_exact.1 [0, 1] 2 (by decide) hlen.le
  refine ⟨hencode.1, hencode.2 hlen.ge 2 (by decide), ?_⟩
  exact (base58_exact.2 (text "12") [0, 1] 2 (by decide +kernel)).2.1

end LedgerBabylon
