import LedgerBabylon.Common.Base58

/-!
# Segwit addresses

An address consists of the human-readable part, a separator, and characters for groups of five bits: the
version, the program and a checksum. The version and the program can be read back, so the addresses of
different programs are different.
-/

namespace LedgerBabylon

open Endian List

inductive Bech32Encoding where
  | bech32
  | bech32m
  deriving DecidableEq

def bech32FinalConstant : Bech32Encoding → UInt32
  | .bech32 => 1
  | .bech32m => 0x2bc830a3

def bech32PolymodStep (pre : UInt32) : UInt32 :=
  let b := pre >>> 25
  let term (i generator : UInt32) : UInt32 := if (b >>> i) &&& 1 = 1 then generator else 0
  ((pre &&& 0x1FFFFFF) <<< 5) ^^^ term 0 0x3b6a57b2 ^^^ term 1 0x26508e6d ^^^ term 2 0x1ea119fa ^^^
    term 3 0x3d4233dd ^^^ term 4 0x2a1462b3

def bech32Charset : Bytes := text "qpzry9x8gf2tvdw0s3jn54khce6mua7l"

def bech32Checksum (hrp data : Bytes) (enc : Bech32Encoding) : UInt32 :=
  let step (chk : UInt32) (value : UInt8) : UInt32 := bech32PolymodStep chk ^^^ value.toUInt32
  let chk := (hrp.map fun ch : UInt8 => ch >>> 5).foldl step 1
  let chk := (hrp.map fun ch : UInt8 => ch &&& 0x1f).foldl step (bech32PolymodStep chk)
  (replicate 6 0).foldl step (data.foldl step chk) ^^^ bech32FinalConstant enc

def bech32Encode (hrp data : Bytes) (enc : Bech32Encoding) : Option Bytes :=
  if hrp.any fun ch => ch < 33 ∨ 126 < ch ∨ (0x41 ≤ ch ∧ ch ≤ 0x5A) then none
  else if 90 < hrp.length + 7 + data.length then none
  else if data.any fun value => value >>> 5 ≠ 0 then none
  else
    let chk := bech32Checksum hrp data enc
    let checksum := (range 6).map fun i => ((chk >>> (UInt32.ofNat ((5 - i) * 5))) &&& 0x1f).toNat
    some (hrp ++ 0x31 :: (data.map UInt8.toNat ++ checksum).map (bech32Charset.getD · 0))

/-- The inner loop of `convert_bits`: the groups that are taken from the value while there are enough
bits, and the number of bits left. -/
def takeGroups (outbits val : Nat) : Nat → Nat → Bytes × Nat
  | 0, bits => ([], bits)
  | fuel + 1, bits =>
    if outbits ≤ bits then
      let (groups, left) := takeGroups outbits val fuel (bits - outbits)
      (UInt8.ofNat ((val >>> (bits - outbits)) % 2 ^ outbits) :: groups, left)
    else ([], bits)

def convertLoop (outbits inbits : Nat) : Bytes → Nat → Nat → Bytes × Nat × Nat
  | [], val, bits => ([], val, bits)
  | byte :: input, val, bits =>
    let val := (val <<< inbits ||| byte.toNat) % 2 ^ 32
    let (groups, left) := takeGroups outbits val (bits + inbits) (bits + inbits)
    let (rest, last) := convertLoop outbits inbits input val left
    (groups ++ rest, last)

def convertBits (outbits inbits : Nat) (input : Bytes) : Bytes :=
  let (groups, val, bits) := convertLoop outbits inbits input 0 0
  if bits ≠ 0 then groups ++ [UInt8.ofNat ((val <<< (outbits - bits)) % 2 ^ outbits)] else groups

def segwitAddrEncode (hrp : Bytes) (witver : Nat) (witprog : Bytes) : Option Bytes :=
  if 16 < witver then none
  else if witver = 0 ∧ witprog.length ≠ 20 ∧ witprog.length ≠ 32 then none
  else if witprog.length < 2 ∨ 40 < witprog.length then none
  else bech32Encode hrp (UInt8.ofNat witver :: convertBits 5 8 witprog)
    (if 0 < witver then .bech32m else .bech32)

example : segwitAddrEncode (text "bc") 0 (beBytes 20 0x751e76e8199196d454941c45d1b3a323f1433bd6) =
    some (text "bc1qw508d6qejxtdg4y5r3zarvary0c5xw7kv8f3t4") := by
  decide +kernel

def groupsNat (groups : Bytes) : Nat := Nat.ofDigits 32 (groups.map UInt8.toNat).reverse

theorem groupsNat_append (as bs : Bytes) :
    groupsNat (as ++ bs) = groupsNat as * 32 ^ bs.length + groupsNat bs := by
  unfold groupsNat
  rw [map_append, reverse_append, Nat.ofDigits_append, length_reverse, length_map]
  ring

theorem groupsNat_singleton (g : UInt8) : groupsNat [g] = g.toNat := by
  simp [groupsNat]

theorem groupsNat_cons (g : UInt8) (groups : Bytes) :
    groupsNat (g :: groups) = g.toNat * 32 ^ groups.length + groupsNat groups := by
  rw [← singleton_append, groupsNat_append, groupsNat_singleton]

structure Groups (val bits : Nat) (result : Bytes × Nat) : Prop where
  left_lt : result.2 < 5
  length : 5 * result.1.length + result.2 = bits
  value : groupsNat result.1 * 2 ^ result.2 + val % 2 ^ result.2 = val % 2 ^ bits
  lt : ∀ g ∈ result.1, g.toNat < 32

theorem takeGroups_spec (val : Nat) {fuel bits : Nat} (hfuel : bits ≤ fuel) :
    Groups val bits (takeGroups 5 val fuel bits) := by
  induction fuel generalizing bits with
  | zero =>
    obtain rfl : bits = 0 := Nat.le_zero.mp hfuel
    exact ⟨Nat.zero_lt_succ 4, rfl, by simp [takeGroups, groupsNat], by simp [takeGroups]⟩
  | succ fuel ih =>
    rw [takeGroups]
    split_ifs with hbits
    · have hrest := @ih (bits - 5) (by omega)
      generalize takeGroups 5 val fuel (bits - 5) = result at hrest
      obtain ⟨groups, left⟩ := result
      have hgroup : (UInt8.ofNat ((val >>> (bits - 5)) % 2 ^ 5)).toNat = val / 2 ^ (bits - 5) % 32 := by
        rw [UInt8.toNat_ofNat', Nat.shiftRight_eq_div_pow]
        omega
      refine ⟨hrest.left_lt, ?_, ?_, ?_⟩
      · have := hrest.length
        simp only [length_cons] at this ⊢
        omega
      · have hlen := hrest.length
        have hvalue := hrest.value
        simp only at hlen hvalue ⊢
        rw [groupsNat_cons, hgroup, Nat.add_mul, Nat.add_assoc, hvalue, Nat.mul_assoc,
          show 32 = 2 ^ 5 from rfl, ← pow_mul, ← pow_add, hlen]
        have hpow : 2 ^ bits = 2 ^ (bits - 5) * 2 ^ 5 := by
          rw [← pow_add, Nat.sub_add_cancel hbits]
        rw [hpow, Nat.mod_mul, Nat.mul_comm, Nat.add_comm]
      · intro g hg
        rcases mem_cons.mp hg with rfl | hg
        · rw [hgroup]
          exact Nat.mod_lt _ (by decide)
        · exact hrest.lt g hg
    · exact ⟨by omega, by simp, by simp [groupsNat], by simp⟩

structure Converted (val bits : Nat) (input : Bytes) (result : Bytes × Nat × Nat) : Prop where
  left_lt : result.2.2 < 5
  length : 5 * result.1.length + result.2.2 = bits + 8 * input.length
  value : groupsNat result.1 * 2 ^ result.2.2 + result.2.1 % 2 ^ result.2.2 =
    val % 2 ^ bits * 256 ^ input.length + beNat input
  lt : ∀ g ∈ result.1, g.toNat < 32

theorem shift_or_mod {val bits : Nat} (hbits : bits < 5) (byte : UInt8) :
    (val <<< 8 ||| byte.toNat) % 2 ^ 32 % 2 ^ (bits + 8) = val % 2 ^ bits * 256 + byte.toNat := by
  have hbyte : byte.toNat < 2 ^ 8 := byte.toNat_lt
  rw [Nat.mod_mod_of_dvd _ (pow_dvd_pow 2 (by omega)), ← Nat.shiftLeft_add_eq_or_of_lt hbyte,
    Nat.shiftLeft_eq, Nat.add_comm bits 8, pow_add, Nat.mod_mul]
  have hdiv : (val * 2 ^ 8 + byte.toNat) / 2 ^ 8 = val := by omega
  have hmod : (val * 2 ^ 8 + byte.toNat) % 2 ^ 8 = byte.toNat := by omega
  rw [hdiv, hmod]
  ring

theorem convertLoop_spec {val bits : Nat} (hbits : bits < 5) (input : Bytes) :
    Converted val bits input (convertLoop 5 8 input val bits) := by
  induction input generalizing val bits with
  | nil =>
    refine ⟨hbits, ?_, ?_, ?_⟩
    · simp [convertLoop]
    · simp [convertLoop, groupsNat, beNat, leNat]
    · simp [convertLoop]
  | cons byte input ih =>
    rw [convertLoop]
    have hgroups := takeGroups_spec ((val <<< 8 ||| byte.toNat) % 2 ^ 32) (Nat.le_refl (bits + 8))
    generalize takeGroups 5 ((val <<< 8 ||| byte.toNat) % 2 ^ 32) (bits + 8) (bits + 8) = taken at hgroups
    obtain ⟨groups, left⟩ := taken
    have hrest := @ih ((val <<< 8 ||| byte.toNat) % 2 ^ 32) left hgroups.left_lt
    simp only
    generalize convertLoop 5 8 input ((val <<< 8 ||| byte.toNat) % 2 ^ 32) left = result at hrest
    obtain ⟨rest, last⟩ := result
    have hlen := hgroups.length
    have hlen' := hrest.length
    have hvalue := hgroups.value
    have hvalue' := hrest.value
    rw [shift_or_mod hbits] at hvalue
    simp only at hlen hlen' hvalue hvalue' ⊢
    refine ⟨hrest.left_lt, ?_, ?_, ?_⟩
    · simp only [length_append, length_cons]
      omega
    · have hbytes : beNat (byte :: input) = byte.toNat * 256 ^ input.length + beNat input := by
        rw [← singleton_append, beNat_append]
        simp [beNat, leNat]
      have hpow : 32 ^ rest.length * 2 ^ last.2 = 2 ^ left * 256 ^ input.length := by
        rw [show 32 = 2 ^ 5 from rfl, show 256 = 2 ^ 8 from rfl, ← pow_mul, ← pow_mul, ← pow_add,
          ← pow_add, hlen']
      calc groupsNat (groups ++ rest) * 2 ^ last.2 + last.1 % 2 ^ last.2
          = groupsNat groups * (32 ^ rest.length * 2 ^ last.2) +
              (groupsNat rest * 2 ^ last.2 + last.1 % 2 ^ last.2) := by rw [groupsNat_append]; ring
        _ = (groupsNat groups * 2 ^ left + (val <<< 8 ||| byte.toNat) % 2 ^ 32 % 2 ^ left) *
              256 ^ input.length + beNat input := by rw [hpow, hvalue']; ring
        _ = val % 2 ^ bits * 256 ^ (byte :: input).length + beNat (byte :: input) := by
            rw [hvalue, hbytes, length_cons]
            ring
    · intro g hg
      rcases mem_append.mp hg with hg | hg
      · exact hgroups.lt g hg
      · exact hrest.lt g hg

theorem convertBits_spec (input : Bytes) :
    ∃ fill, fill < 5 ∧ 5 * (convertBits 5 8 input).length = 8 * input.length + fill ∧
      groupsNat (convertBits 5 8 input) = beNat input * 2 ^ fill ∧
      ∀ g ∈ convertBits 5 8 input, g.toNat < 32 := by
  have h := @convertLoop_spec 0 0 (by decide) input
  unfold convertBits
  generalize convertLoop 5 8 input 0 0 = result at h
  obtain ⟨groups, val, bits⟩ := result
  obtain ⟨hbits, hlen, hvalue, hlt⟩ := h
  simp only [Nat.zero_add, Nat.zero_mod, Nat.zero_mul] at hbits hlen hvalue hlt ⊢
  split_ifs with hzero
  · have hsplit : 2 ^ 5 = 2 ^ bits * 2 ^ (5 - bits) := by rw [← pow_add, Nat.add_sub_cancel' hbits.le]
    have hlast : (UInt8.ofNat ((val <<< (5 - bits)) % 2 ^ 5)).toNat = val % 2 ^ bits * 2 ^ (5 - bits) := by
      rw [UInt8.toNat_ofNat', Nat.shiftLeft_eq, Nat.mod_eq_of_lt (Nat.lt_trans (Nat.mod_lt _ (by decide))
        (by decide : 2 ^ 5 < 2 ^ 8)), hsplit, Nat.mul_mod_mul_right]
    refine ⟨5 - bits, by omega, ?_, ?_, ?_⟩
    · rw [length_append, length_singleton]
      omega
    · rw [groupsNat_append, groupsNat_singleton, hlast, length_singleton, pow_one,
        show 32 = 2 ^ bits * 2 ^ (5 - bits) from hsplit, ← hvalue]
      ring
    · intro g hg
      rcases mem_append.mp hg with hg | hg
      · exact hlt g hg
      · rw [mem_singleton.mp hg, UInt8.toNat_ofNat']
        omega
  · obtain rfl : bits = 0 := not_not.mp hzero
    refine ⟨0, by decide, by omega, ?_, hlt⟩
    simpa [Nat.mod_one] using hvalue

theorem convertBits_injective {input input' : Bytes}
    (h : convertBits 5 8 input = convertBits 5 8 input') : input = input' := by
  obtain ⟨fill, hfill, hlen, hvalue, -⟩ := convertBits_spec input
  obtain ⟨fill', hfill', hlen', hvalue', -⟩ := convertBits_spec input'
  rw [h] at hlen hvalue
  obtain rfl : fill = fill' := by omega
  apply beNat_injective (by omega)
  exact Nat.eq_of_mul_eq_mul_right (by positivity) (hvalue.symm.trans hvalue')

theorem bech32Encode_eq_some {hrp data text : Bytes} {enc : Bech32Encoding}
    (h : bech32Encode hrp data enc = some text) :
    text.length ≤ 90 ∧ (∀ value ∈ data, value.toNat < 32) ∧
      ∃ checksum : List Nat, checksum.length = 6 ∧ (∀ d ∈ checksum, d < 32) ∧
        text = hrp ++ 0x31 :: (data.map UInt8.toNat ++ checksum).map (bech32Charset.getD · 0) := by
  unfold bech32Encode at h
  split_ifs at h with hchars hlong hdata
  cases h
  refine ⟨?_, ?_, _, ?_, ?_, rfl⟩
  · simp
    omega
  · intro value hvalue
    have hshift : value >>> 5 = 0 := by
      by_contra hne
      exact hdata (any_eq_true.mpr ⟨value, hvalue, decide_eq_true hne⟩)
    have hnat := congrArg UInt8.toNat hshift
    rw [UInt8.toNat_shiftRight, Nat.shiftRight_eq_div_pow] at hnat
    exact (Nat.div_eq_zero_iff_lt (by decide)).mp hnat
  · simp
  · intro d hd
    obtain ⟨i, -, rfl⟩ := mem_map.mp hd
    rw [UInt32.toNat_and]
    exact Nat.lt_succ_of_le Nat.and_le_right

theorem all_lt_charset {data : Bytes} {checksum : List Nat} (hdata : ∀ value ∈ data, value.toNat < 32)
    (hlt : ∀ d ∈ checksum, d < 32) : ∀ d ∈ data.map UInt8.toNat ++ checksum, d < bech32Charset.length := by
  intro d hd
  rcases mem_append.mp hd with hd | hd
  · obtain ⟨value, hvalue, rfl⟩ := mem_map.mp hd
    exact hdata value hvalue
  · exact hlt d hd

theorem bech32Encode_injective {hrp data data' text : Bytes} {enc enc' : Bech32Encoding}
    (h : bech32Encode hrp data enc = some text) (h' : bech32Encode hrp data' enc' = some text) :
    data = data' := by
  obtain ⟨-, hdata, checksum, hlen, hlt, rfl⟩ := bech32Encode_eq_some h
  obtain ⟨-, hdata', checksum', hlen', hlt', htext⟩ := bech32Encode_eq_some h'
  have hdigits := map_getD_injective (by decide) (all_lt_charset hdata hlt) (all_lt_charset hdata' hlt')
    (cons.inj (append_cancel_left htext)).2
  obtain ⟨hvalues, -⟩ := append_inj' hdigits (hlen.trans hlen'.symm)
  exact (map_inj_right fun a b => UInt8.toNat_inj.mp).mp hvalues

theorem segwitAddrEncode_eq_some {hrp witprog text : Bytes} {witver : Nat}
    (h : segwitAddrEncode hrp witver witprog = some text) :
    witver ≤ 16 ∧
      ∃ enc, bech32Encode hrp (UInt8.ofNat witver :: convertBits 5 8 witprog) enc = some text := by
  unfold segwitAddrEncode at h
  split_ifs at h with hversion _ _ <;> exact ⟨not_lt.mp hversion, _, h⟩

theorem exists_segwitAddrEncode {hrp witprog : Bytes} {witver : Nat} (hhrp : hrp.length ≤ 18)
    (hchars : ∀ ch ∈ hrp, ¬(ch < 33 ∨ 126 < ch ∨ (0x41 ≤ ch ∧ ch ≤ 0x5A))) (hversion : witver ≤ 16)
    (hzero : witver = 0 → witprog.length = 20 ∨ witprog.length = 32) (hlo : 2 ≤ witprog.length)
    (hhi : witprog.length ≤ 40) : ∃ address, segwitAddrEncode hrp witver witprog = some address := by
  obtain ⟨fill, hfill, hlen, -, hlt⟩ := convertBits_spec witprog
  have hvalid : (hrp.any fun ch => ch < 33 ∨ 126 < ch ∨ (0x41 ≤ ch ∧ ch ≤ 0x5A)) = false := by
    rw [any_eq_false]
    intro ch hch
    simpa using hchars ch hch
  have hdata : ((UInt8.ofNat witver :: convertBits 5 8 witprog).any fun value => value >>> 5 ≠ 0) = false := by
    rw [any_eq_false]
    intro value hvalue
    have hsmall : value.toNat < 32 := by
      rcases mem_cons.mp hvalue with rfl | hvalue
      · rw [UInt8.toNat_ofNat']
        omega
      · exact hlt value hvalue
    have hshift : value >>> 5 = 0 := by
      apply UInt8.toNat_inj.mp
      rw [UInt8.toNat_shiftRight, Nat.shiftRight_eq_div_pow]
      exact Nat.div_eq_of_lt hsmall
    simp [hshift]
  rw [segwitAddrEncode, if_neg (by omega), if_neg (by omega), if_neg (by omega), bech32Encode, hvalid,
    if_neg (by decide), if_neg (by rw [length_cons]; omega), hdata, if_neg (by decide)]
  exact ⟨_, rfl⟩

theorem segwitAddrEncode_injective {hrp witprog witprog' text : Bytes} {witver witver' : Nat}
    (h : segwitAddrEncode hrp witver witprog = some text)
    (h' : segwitAddrEncode hrp witver' witprog' = some text) : witver = witver' ∧ witprog = witprog' := by
  obtain ⟨hversion, enc, hencode⟩ := segwitAddrEncode_eq_some h
  obtain ⟨hversion', enc', hencode'⟩ := segwitAddrEncode_eq_some h'
  obtain ⟨hwitver, hwitprog⟩ := cons.inj (bech32Encode_injective hencode hencode')
  refine ⟨?_, convertBits_injective hwitprog⟩
  have hnat := congrArg UInt8.toNat hwitver
  rwa [UInt8.toNat_ofNat', UInt8.toNat_ofNat', Nat.mod_eq_of_lt (by omega), Nat.mod_eq_of_lt (by omega)] at hnat

end LedgerBabylon
