import LedgerBabylon.Common.Script

/-!
# The texts of output scripts

A script that is shown either pays to a destination or pushes data after `OP_RETURN`. Destinations and
pushes determine both the script and the text, and the text determines them: so different scripts are
shown differently. The texts fit in the buffers for them.
-/

namespace LedgerBabylon

open List Endian

variable {data rest description : Bytes} {c opcode : UInt8}

inductive Push where
  | negativeOne
  | number (n : Fin 17)
  | data (bytes : Bytes) (length_pos : 0 < bytes.length) (length_le : bytes.length ≤ 255)

variable {p : Push} {ps qs : List Push}

namespace Push

def script : Push → Bytes
  | .negativeOne => [OP_1NEGATE]
  | .number n => [if n = 0 then OP_0 else UInt8.ofNat (0x50 + n)]
  | .data bytes _ _ =>
    if bytes.length ≤ 75 then UInt8.ofNat bytes.length :: bytes
    else OP_PUSHDATA1 :: UInt8.ofNat bytes.length :: bytes

def text : Push → Bytes
  | .negativeOne => [0x2D, 0x31]
  | .number n => if n.val < 10 then [UInt8.ofNat (0x30 + n)] else [0x31, UInt8.ofNat (0x30 + (n - 10))]
  | .data bytes _ _ => 0x30 :: 0x78 :: hexText bytes

end Push

theorem lowercaseHex_injective : ∀ d < 16, ∀ e < 16, lowercaseHex d = lowercaseHex e → d = e := by
  decide

theorem hexText_injective {data' : Bytes} (h : hexText data = hexText data') : data = data' := by
  induction data generalizing data' with
  | nil =>
    cases data' with
    | nil => rfl
    | cons byte data' => exact absurd h (by simp [hexText])
  | cons byte data ih =>
    cases data' with
    | nil => exact absurd h (by simp [hexText])
    | cons byte' data' =>
      have hbyte := byte.toNat_lt
      have hbyte' := byte'.toNat_lt
      rw [hexText, flatMap_cons, hexText, flatMap_cons] at h
      obtain ⟨hhead, htail⟩ := append_inj h rfl
      obtain ⟨hhigh, hlow⟩ := cons.inj hhead
      have hhigh := lowercaseHex_injective _ (by omega) _ (by omega) hhigh
      have hlow := lowercaseHex_injective _ (by omega) _ (by omega) (cons.inj hlow).1
      have heq : byte = byte' := UInt8.toNat_inj.mp (by omega)
      rw [heq, ih htail]

theorem length_hexText (data : Bytes) : (hexText data).length = 2 * data.length := by
  induction data with
  | nil => rfl
  | cons byte data ih =>
    rw [hexText, flatMap_cons, length_append]
    rw [hexText] at ih
    rw [ih, length_cons, length_cons, length_cons, length_nil]
    omega

theorem lowercaseHex_gt : ∀ d < 16, 0x20 < lowercaseHex d := by
  decide

theorem hexText_gt (h : c ∈ hexText data) : 0x20 < c := by
  obtain ⟨byte, -, hc⟩ := mem_flatMap.mp h
  have hbyte := byte.toNat_lt
  rcases mem_cons.mp hc with rfl | hc
  · exact lowercaseHex_gt _ (by omega)
  · rw [mem_singleton.mp hc]
    exact lowercaseHex_gt _ (by omega)

namespace Push

theorem number_text_injective : ∀ n m : Fin 17, (number n).text = (number m).text → n = m := by
  decide

theorem number_text_ne : ∀ n : Fin 17, (number n).text.take 2 ≠ [0x30, 0x78] ∧
    (number n).text ≠ negativeOne.text := by
  decide

theorem text_injective {q : Push} (h : p.text = q.text) : p = q := by
  cases p with
  | negativeOne =>
    cases q with
    | negativeOne => rfl
    | number m => exact absurd h.symm (number_text_ne m).2
    | data bytes _ _ => exact absurd (cons.inj h).1 (by decide)
  | number n =>
    cases q with
    | negativeOne => exact absurd h (number_text_ne n).2
    | number m => rw [number_text_injective n m h]
    | data bytes _ _ => exact absurd (congrArg (take 2) h) (number_text_ne n).1
  | data bytes _ _ =>
    cases q with
    | negativeOne => exact absurd (cons.inj h).1 (by decide)
    | number m => exact absurd (congrArg (take 2) h.symm) (number_text_ne m).1
    | data bytes' _ _ =>
      obtain rfl := hexText_injective (cons.inj (cons.inj h).2).2
      rfl

theorem text_gt (h : c ∈ p.text) : 0x20 < c := by
  cases p with
  | negativeOne => exact (by decide +kernel : ∀ c ∈ negativeOne.text, 0x20 < c) c h
  | number n => exact (by decide +kernel : ∀ n : Fin 17, ∀ c ∈ (number n).text, 0x20 < c) n c h
  | data bytes hpos hle =>
    rcases mem_cons.mp h with rfl | h
    · decide
    rcases mem_cons.mp h with rfl | h
    · decide
    exact hexText_gt h

theorem length_text_le (p : Push) : p.text.length ≤ 2 * p.script.length := by
  cases p with
  | negativeOne => decide
  | number n => revert n; decide
  | data bytes hpos hle =>
    rw [text, script, length_cons, length_cons, length_hexText]
    split_ifs <;> simp only [length_cons] <;> omega

theorem texts_injective
    (h : (ps.flatMap fun p => p.text ++ [0x20]) = qs.flatMap fun q => q.text ++ [0x20]) : ps = qs := by
  -- the text of the first push ends at the first space
  have hfirst : ∀ (p : Push) (rest : Bytes), (p.text ++ 0x20 :: rest).takeWhile (0x20 < ·) = p.text := by
    intro p rest
    rw [takeWhile_append_of_pos fun c hc => decide_eq_true (text_gt hc)]
    simp
  induction ps generalizing qs with
  | nil =>
    cases qs with
    | nil => rfl
    | cons q qs => exact absurd h (by simp)
  | cons p ps ih =>
    cases qs with
    | nil => exact absurd h (by simp)
    | cons q qs =>
      simp only [flatMap_cons, append_assoc, singleton_append] at h
      have hhead := congrArg (takeWhile (0x20 < ·)) h
      rw [hfirst, hfirst] at hhead
      obtain rfl := text_injective hhead
      rw [ih (cons.inj (append_cancel_left h)).2]

end Push

theorem formatData_eq_some {length : Nat} {script text : Bytes} (hpos : 0 < length)
    (hle : length ≤ 255) (h : formatData length script = some (text, rest)) :
    ∃ (bytes : Bytes) (hb : bytes.length = length), script = bytes ++ rest ∧
      text = (Push.data bytes (hb ▸ hpos) (hb ▸ hle)).text := by
  unfold formatData at h
  split_ifs at h with hshort hopcode
  cases h
  refine ⟨script.take length, length_take_of_le (not_lt.mp hshort), ?_, rfl⟩
  rw [take_append_drop]

theorem numberOpcode_eq : ∀ k < 0x61, 0x51 ≤ k → ∃ n : Fin 17, [UInt8.ofNat k] = (Push.number n).script ∧
    (if 10 ≤ UInt8.ofNat k - 0x50 then [0x31, 0x30 + (UInt8.ofNat k - 0x50 - 10)]
      else [0x30 + (UInt8.ofNat k - 0x50)]) = (Push.number n).text := by
  decide

theorem formatPush_eq_some {script text : Bytes} (h : formatPush opcode script = some (text, rest)) :
    ∃ p : Push, opcode :: script = p.script ++ rest ∧ text = p.text := by
  unfold formatPush at h
  split_ifs at h with hunsupported hzero hdata hpushdata hnegative hnumber
  · cases h
    exact ⟨.number 0, by rw [hzero]; rfl, rfl⟩
  · obtain ⟨hlo, hhi⟩ := hdata
    rw [UInt8.le_iff_toNat_le] at hlo hhi
    obtain ⟨bytes, hlen, rfl, rfl⟩ := formatData_eq_some hlo (hhi.trans (by decide)) h
    refine ⟨.data bytes _ _, ?_, rfl⟩
    have hle : bytes.length ≤ 75 := hlen.trans_le hhi
    rw [Push.script, if_pos hle, hlen, UInt8.ofNat_toNat, cons_append]
  · cases script with
    | nil => simp at h
    | cons length script =>
      simp only at h
      split_ifs at h with hshort
      rw [UInt8.le_iff_toNat_le, not_le] at hshort
      obtain ⟨bytes, hlen, rfl, rfl⟩ := formatData_eq_some (Nat.zero_lt_of_lt hshort)
        (Nat.le_of_lt_succ length.toNat_lt) h
      refine ⟨.data bytes _ _, ?_, rfl⟩
      have hlong : ¬bytes.length ≤ 75 := not_le.mpr (hlen ▸ hshort)
      rw [Push.script, if_neg hlong, hlen, UInt8.ofNat_toNat, hpushdata, cons_append, cons_append]
  · cases h
    exact ⟨.negativeOne, by rw [hnegative]; rfl, rfl⟩
  · cases h
    obtain ⟨hlo, hhi⟩ := hnumber
    rw [UInt8.le_iff_toNat_le] at hlo hhi
    obtain ⟨n, hscript, htext⟩ := numberOpcode_eq opcode.toNat (Nat.lt_succ_of_le hhi) hlo
    rw [UInt8.ofNat_toNat] at hscript htext
    exact ⟨.number n, by rw [← hscript, singleton_append], htext⟩

theorem formatPushes_eq_some {n : Nat} {script text : Bytes} (h : formatPushes n script = some text) :
    ∃ ps : List Push, ps.length ≤ n ∧ script = ps.flatMap Push.script ∧
      text = ps.flatMap fun p => p.text ++ [0x20] := by
  induction n generalizing script text with
  | zero =>
    cases script with
    | nil => exact ⟨[], Nat.le_refl _, rfl, (Option.some.inj h).symm⟩
    | cons opcode script => simp [formatPushes] at h
  | succ n ih =>
    cases script with
    | nil => exact ⟨[], Nat.zero_le _, rfl, (Option.some.inj h).symm⟩
    | cons opcode script =>
      simp only [formatPushes, Option.bind_eq_bind, Option.bind_eq_some_iff] at h
      obtain ⟨⟨push, rest⟩, hpush, pushes, hpushes, htext⟩ := h
      obtain ⟨p, hscript, rfl⟩ := formatPush_eq_some hpush
      obtain ⟨ps, hlen, rfl, rfl⟩ := ih hpushes
      refine ⟨p :: ps, Nat.succ_le_succ hlen, hscript, ?_⟩
      rw [← Option.some.inj htext, flatMap_cons, append_assoc, singleton_append]

def opreturnText (ps : List Push) : Bytes := text "OP_RETURN" ++ ps.flatMap fun p => 0x20 :: p.text

theorem opreturnText_append_space (ps : List Push) :
    opreturnText ps ++ [0x20] = text "OP_RETURN " ++ ps.flatMap fun p => p.text ++ [0x20] := by
  have hspaces : (ps.flatMap fun p => 0x20 :: p.text) ++ [0x20] =
      0x20 :: ps.flatMap fun p => p.text ++ [0x20] := by
    induction ps with
    | nil => rfl
    | cons p ps ih => simp only [flatMap_cons, append_assoc, ih, cons_append, nil_append]
  rw [opreturnText, append_assoc, hspaces]
  rfl

theorem opreturnText_injective (h : opreturnText ps = opreturnText qs) : ps = qs := by
  apply Push.texts_injective
  rw [← append_right_inj (text "OP_RETURN "), ← opreturnText_append_space, ← opreturnText_append_space, h]

theorem formatOpscriptScript_eq_some {script : Bytes} (h : formatOpscriptScript script = some description) :
    script.length ≤ 83 ∧ ∃ ps : List Push, ps.length ≤ 5 ∧
      script = OP_RETURN :: ps.flatMap Push.script ∧ description = opreturnText ps := by
  unfold formatOpscriptScript at h
  cases script with
  | nil => simp at h
  | cons opcode rest =>
    simp only at h
    split_ifs at h with hopcode hlong hone
    · obtain rfl := not_not.mp hopcode
      obtain rfl : rest = [] := length_eq_zero_iff.mp (Nat.succ.inj hone)
      exact ⟨by decide, [], by decide, rfl, (Option.some.inj h).symm⟩
    · obtain rfl := not_not.mp hopcode
      simp only [Option.bind_eq_bind, Option.bind_eq_some_iff] at h
      obtain ⟨pushes, hpushes, htext⟩ := h
      obtain ⟨ps, hlen, rfl, rfl⟩ := formatPushes_eq_some hpushes
      refine ⟨not_lt.mp hlong, ps, hlen, rfl, ?_⟩
      rw [← Option.some.inj htext, ← opreturnText_append_space, dropLast_concat]

inductive Destination where
  | p2pkh (hash : Bytes) (length_hash : hash.length = 20)
  | p2sh (hash : Bytes) (length_hash : hash.length = 20)
  | witness (version : Nat) (program : Bytes)

variable {d : Destination}

namespace Destination

def script : Destination → Bytes
  | .p2pkh hash _ => OP_DUP :: OP_HASH160 :: 0x14 :: (hash ++ [OP_EQUALVERIFY, OP_CHECKSIG])
  | .p2sh hash _ => OP_HASH160 :: 0x14 :: (hash ++ [OP_EQUAL])
  | .witness version program =>
    (if version = 0 then 0 else UInt8.ofNat (80 + version)) :: UInt8.ofNat program.length :: program

def address (crypto : Crypto) (coin : Coin) (outLen : Nat) : Destination → Option Bytes
  | .p2pkh hash _ => crypto.base58EncodeAddress hash coin.p2pkhVersion (outLen - 1)
  | .p2sh hash _ => crypto.base58EncodeAddress hash coin.p2shVersion (outLen - 1)
  | .witness version program => segwitAddrEncode coin.nativeSegwitHrp version program

end Destination

theorem drop_eq_getD_cons {l : Bytes} {i : Nat} (h : i < l.length) :
    l.drop i = l.getD i 0 :: l.drop (i + 1) := by
  rw [drop_eq_getElem_cons h, getD_eq_getElem _ _ h]

theorem getScriptType_eq_some {script : Bytes} {type : ScriptType} (h : getScriptType script = some type) :
    (type = .p2pkh ∧ ∃ hash hlen, script = (Destination.p2pkh hash hlen).script) ∨
      (type = .p2sh ∧ ∃ hash hlen, script = (Destination.p2sh hash hlen).script) ∨
      (type ≠ .p2pkh ∧ type ≠ .p2sh ∧ script.length = 2 + (script.getD 1 0).toNat ∧
        (script.getD 0 0 = 0 ∨ (OP_1 ≤ script.getD 0 0 ∧ script.getD 0 0 ≤ OP_16))) := by
  unfold getScriptType at h
  dsimp only at h
  split_ifs at h with h₁ h₂ h3 h4 h5 h6
  · cases h
    obtain ⟨hlen, h0, h1, h2, h23, h24⟩ := h₁
    refine .inl ⟨rfl, (script.drop 3).take 20, by rw [length_take, length_drop]; omega, ?_⟩
    have hend : (script.drop 3).drop 20 = [OP_EQUALVERIFY, OP_CHECKSIG] := by
      rw [drop_drop, drop_eq_getD_cons (by omega), h23, drop_eq_getD_cons (by omega), h24,
        drop_of_length_le (by omega)]
    rw [Destination.script, ← hend, take_append_drop, ← h0, ← h1, ← h2,
      ← drop_eq_getD_cons (by omega), ← drop_eq_getD_cons (by omega), ← drop_eq_getD_cons (by omega),
      drop_zero]
  · cases h
    obtain ⟨hlen, h0, h1, h22⟩ := h₂
    refine .inr (.inl ⟨rfl, (script.drop 2).take 20, by rw [length_take, length_drop]; omega, ?_⟩)
    have hend : (script.drop 2).drop 20 = [OP_EQUAL] := by
      rw [drop_drop, drop_eq_getD_cons (by omega), h22, drop_of_length_le (by omega)]
    rw [Destination.script, ← hend, take_append_drop, ← h0, ← h1, ← drop_eq_getD_cons (by omega),
      ← drop_eq_getD_cons (by omega), drop_zero]
  · cases h
    refine .inr (.inr ⟨by decide, by decide, ?_, .inl h3.2.1⟩)
    rw [h3.1, h3.2.2]
    rfl
  · cases h
    refine .inr (.inr ⟨by decide, by decide, ?_, .inl h4.2.1⟩)
    rw [h4.1, h4.2.2]
    rfl
  · cases h
    refine .inr (.inr ⟨by decide, by decide, ?_, .inr ?_⟩)
    · rw [h5.1, h5.2.2]
      rfl
    · rw [h5.2.1]
      decide
  · cases h
    exact .inr (.inr ⟨by decide, by decide, h6.2.2.2, h6.2.2.1⟩)

theorem versionOpcode_eq (h : opcode = 0 ∨ (OP_1 ≤ opcode ∧ opcode ≤ OP_16)) :
    (if (if opcode = 0 then 0 else opcode.toNat - 80) = 0 then 0
      else UInt8.ofNat (80 + (if opcode = 0 then 0 else opcode.toNat - 80))) = opcode := by
  rcases h with rfl | ⟨hlo, -⟩
  · rfl
  · have hlo : 81 ≤ opcode.toNat := UInt8.le_iff_toNat_le.mp hlo
    have hne : opcode ≠ 0 := by
      rintro rfl
      exact absurd hlo (by decide)
    rw [if_neg hne, if_neg (by omega), Nat.add_sub_cancel' (by omega), UInt8.ofNat_toNat]

theorem base58EncodeAddress_append (crypto : Crypto) {hash : Bytes} (hlen : hash.length = 20)
    (rest : Bytes) (version outLen : Nat) :
    crypto.base58EncodeAddress (hash ++ rest) version outLen =
      crypto.base58EncodeAddress hash version outLen := by
  unfold Crypto.base58EncodeAddress
  rw [take_left' hlen, take_of_length_le hlen.le]

variable {coin : Coin}

theorem getScriptAddress_eq_some {crypto : Crypto} {script address : Bytes} {outLen : Nat}
    (h : getScriptAddress crypto coin script outLen = some address) :
    ∃ d : Destination, script = d.script ∧ d.address crypto coin outLen = some address := by
  cases htype : getScriptType script with
  | none => simp [getScriptAddress, htype] at h
  | some type =>
    rw [getScriptAddress, htype] at h
    rcases getScriptType_eq_some htype with ⟨rfl, hash, hlen, rfl⟩ | ⟨rfl, hash, hlen, rfl⟩ |
      ⟨hp2pkh, hp2sh, hlen, hversion⟩
    · refine ⟨_, rfl, ?_⟩
      rw [Destination.address, ← base58EncodeAddress_append crypto hlen [OP_EQUALVERIFY, OP_CHECKSIG]]
      exact h
    · refine ⟨_, rfl, ?_⟩
      rw [Destination.address, ← base58EncodeAddress_append crypto hlen [OP_EQUAL]]
      exact h
    · have hsegwit : (if outLen < 73 + coin.nativeSegwitHrp.length then none
          else segwitAddrEncode coin.nativeSegwitHrp
            (if script.getD 0 0 = 0 then 0 else (script.getD 0 0).toNat - 80)
            ((script.drop 2).take (script.getD 1 0).toNat)) = some address := by
        cases type with
        | p2pkh => exact absurd rfl hp2pkh
        | p2sh => exact absurd rfl hp2sh
        | p2wpkh | p2wsh | p2tr | unknownSegwit => exact h
      have hopcode := versionOpcode_eq hversion
      generalize (if script.getD 0 0 = 0 then 0 else (script.getD 0 0).toNat - 80) = version at hsegwit hopcode
      split_ifs at hsegwit with hshort
      rw [take_of_length_le (by rw [length_drop]; omega)] at hsegwit
      refine ⟨.witness version (script.drop 2), ?_, hsegwit⟩
      rw [Destination.script, hopcode, length_drop, hlen, Nat.add_sub_cancel_left,
        UInt8.ofNat_toNat, ← drop_eq_getD_cons (by omega), ← drop_eq_getD_cons (by omega), drop_zero]

theorem length_getChecksum (crypto : Crypto) (message : Bytes) : (crypto.getChecksum message).length = 4 := by
  rw [Crypto.getChecksum, length_take, Digest.length_bytes]
  rfl

theorem base58EncodeAddress_eq {crypto : Crypto} {hash : Bytes} (hlen : hash.length = 20) {version : Nat}
    (hversion : version < 256) (outLen : Nat) :
    ∃ checksum : Bytes, checksum.length = 4 ∧ crypto.base58EncodeAddress hash version outLen =
        base58Encode (UInt8.ofNat version :: (hash ++ checksum)) outLen := by
  refine ⟨crypto.getChecksum (UInt8.ofNat version :: hash), length_getChecksum crypto _, ?_⟩
  unfold Crypto.base58EncodeAddress
  simp only [if_pos hversion, take_of_length_le hlen.le]
  rw [append_assoc]
  rfl

theorem base58EncodeAddress_injective {crypto : Crypto} {hash hash' text : Bytes}
    (hlen : hash.length = 20) (hlen' : hash'.length = 20) {version version' outLen : Nat}
    (hversion : version < 256) (hversion' : version' < 256)
    (h : crypto.base58EncodeAddress hash version outLen = some text)
    (h' : crypto.base58EncodeAddress hash' version' outLen = some text) :
    version = version' ∧ hash = hash' := by
  obtain ⟨checksum, hchecksum, hencode⟩ := @base58EncodeAddress_eq crypto hash hlen version hversion outLen
  obtain ⟨checksum', hchecksum', hencode'⟩ :=
    @base58EncodeAddress_eq crypto hash' hlen' version' hversion' outLen
  rw [hencode] at h
  rw [hencode'] at h'
  obtain ⟨hbyte, hrest⟩ := cons.inj (base58Encode_injective (by simp [*]) h h')
  refine ⟨?_, (append_inj hrest (hlen.trans hlen'.symm)).1⟩
  have hnat := congrArg UInt8.toNat hbyte
  rwa [UInt8.toNat_ofNat', UInt8.toNat_ofNat', Nat.mod_eq_of_lt hversion, Nat.mod_eq_of_lt hversion'] at hnat

def base58Heads : Bytes := text "123mn"

theorem base58Encode_head {version : Nat} (hversion : version < 256) {address : Bytes}
    (hlen : rest.length = 24) {outLen : Nat} (lo hi e : Nat) (hlo : 1 ≤ lo) (hhi : hi ≤ 58)
    (hle : lo * 58 ^ e ≤ version * 256 ^ 24) (hlt : (version + 1) * 256 ^ 24 ≤ hi * 58 ^ e)
    (h : base58Encode (UInt8.ofNat version :: rest) outLen = some address) :
    ∃ d, lo ≤ d ∧ d < hi ∧ address.head? = some (base58Alphabet.getD d 0) := by
  obtain ⟨-, zeroCount, digits, htext⟩ := base58Encode_eq_some h
  have hvalue : beNat (UInt8.ofNat version :: rest) = version * 256 ^ 24 + beNat rest := by
    rw [← singleton_append, beNat_append, hlen]
    simp [beNat, leNat, Nat.mod_eq_of_lt hversion]
  have hrest : beNat rest < 256 ^ 24 := by
    have := leNat_lt rest.reverse
    rwa [length_reverse, hlen] at this
  have hpos : UInt8.ofNat version ≠ 0 := by
    intro hzero
    have hnat := congrArg UInt8.toNat hzero
    rw [UInt8.toNat_ofNat', Nat.mod_eq_of_lt hversion] at hnat
    have : 0 < lo * 58 ^ e := by positivity
    rw [hnat] at hle
    exact absurd hle (by simp; omega)
  have hzero : zeroCount = 0 := by
    rw [htext.zeroCount_eq, takeWhile_cons_of_neg (by simpa using hpos)]
    rfl
  obtain ⟨d, tail, rfl, hd, hd'⟩ := htext.first_digit (e := e) hlo hhi (by omega) (by omega)
  refine ⟨d, hd, hd', ?_⟩
  rw [htext.text_eq, hzero]
  rfl

theorem base58Encode_head_zero {text : Bytes} {outLen : Nat}
    (h : base58Encode (0 :: rest) outLen = some text) : text.head? = some 0x31 := by
  obtain ⟨-, zeroCount, digits, htext⟩ := base58Encode_eq_some h
  have hzero : zeroCount = (rest.takeWhile (· = 0)).length + 1 := by
    rw [htext.zeroCount_eq, takeWhile_cons_of_pos (by simp), length_cons]
  rw [htext.text_eq, hzero, replicate_succ]
  rfl

theorem base58EncodeAddress_head {crypto : Crypto} {hash address : Bytes}
    (hlen : hash.length = 20) {version outLen : Nat}
    (hversion : version = coin.p2pkhVersion ∨ version = coin.p2shVersion)
    (h : crypto.base58EncodeAddress hash version outLen = some address) :
    ∃ c ∈ base58Heads, address.head? = some c := by
  have hlt : version < 256 := by
    rcases hversion with rfl | rfl <;> cases coin <;> decide
  obtain ⟨checksum, hchecksum, hencode⟩ := @base58EncodeAddress_eq crypto hash hlen version hlt outLen
  rw [hencode] at h
  have hrest : (hash ++ checksum).length = 24 := by rw [length_append, hlen, hchecksum]
  rcases hversion with rfl | rfl <;> cases coin
  case inl.bitcoinTestnet =>
    obtain ⟨d, hlo, hhi, hhead⟩ := base58Encode_head (by decide) hrest 44 46 33 (by decide) (by decide)
      (by decide) (by decide) h
    exact ⟨_, (by decide : ∀ d < 46, 44 ≤ d → base58Alphabet.getD d 0 ∈ base58Heads) d hhi hlo, hhead⟩
  case inl.bitcoin => exact ⟨0x31, by decide, base58Encode_head_zero h⟩
  case inr.bitcoinTestnet =>
    obtain ⟨d, hlo, hhi, hhead⟩ := base58Encode_head (by decide) hrest 1 2 34 (by decide) (by decide)
      (by decide) (by decide) h
    exact ⟨_, (by decide : ∀ d < 2, 1 ≤ d → base58Alphabet.getD d 0 ∈ base58Heads) d hhi hlo, hhead⟩
  case inr.bitcoin =>
    obtain ⟨d, hlo, hhi, hhead⟩ := base58Encode_head (by decide) hrest 2 3 33 (by decide) (by decide)
      (by decide) (by decide) h
    exact ⟨_, (by decide : ∀ d < 3, 2 ≤ d → base58Alphabet.getD d 0 ∈ base58Heads) d hhi hlo, hhead⟩

theorem segwitAddrEncode_head {version : Nat} {program address : Bytes}
    (h : segwitAddrEncode coin.nativeSegwitHrp version program = some address) :
    address.head? = coin.nativeSegwitHrp.head? := by
  obtain ⟨-, enc, hencode⟩ := segwitAddrEncode_eq_some h
  obtain ⟨-, -, checksum, -, -, rfl⟩ := bech32Encode_eq_some hencode
  cases coin <;> rfl

theorem nativeSegwitHrp_head (coin : Coin) (hc : c ∈ base58Heads) : coin.nativeSegwitHrp.head? ≠ some c := by
  cases coin
  · exact (by decide +kernel : ∀ c ∈ base58Heads, Coin.bitcoinTestnet.nativeSegwitHrp.head? ≠ some c) c hc
  · exact (by decide +kernel : ∀ c ∈ base58Heads, Coin.bitcoin.nativeSegwitHrp.head? ≠ some c) c hc

theorem nativeSegwitHrp_gt (coin : Coin) : ∀ c ∈ coin.nativeSegwitHrp, 0x20 < c := by
  cases coin <;> decide +kernel

theorem mem_alphabet {alphabet : Bytes} {digits : List Nat} (h : ∀ d ∈ digits, d < alphabet.length)
    (hc : c ∈ digits.map (alphabet.getD · 0)) : c ∈ alphabet := by
  obtain ⟨d, hd, rfl⟩ := mem_map.mp hc
  rw [getD_eq_getElem _ _ (h d hd)]
  exact getElem_mem _

namespace Destination

variable {crypto : Crypto} {coin : Coin} {outLen : Nat}

/-- Different destinations have different addresses. -/
theorem address_injective {d' : Destination} {address : Bytes}
    (h : d.address crypto coin outLen = some address) (h' : d'.address crypto coin outLen = some address) :
    d = d' := by
  have hversions : coin.p2pkhVersion < 256 ∧ coin.p2shVersion < 256 ∧
      coin.p2pkhVersion ≠ coin.p2shVersion := by
    cases coin <;> decide
  obtain ⟨hp2pkh, hp2sh, hne⟩ := hversions
  -- addresses of hashes and of programs begin differently
  have hheads : ∀ {version version' : Nat} {hash program : Bytes}, hash.length = 20 →
      version = coin.p2pkhVersion ∨ version = coin.p2shVersion →
      crypto.base58EncodeAddress hash version (outLen - 1) = some address →
      segwitAddrEncode coin.nativeSegwitHrp version' program ≠ some address := by
    intro version version' hash program hlen hversion hbase58 hsegwit
    obtain ⟨c, hc, hhead⟩ := base58EncodeAddress_head hlen hversion hbase58
    exact nativeSegwitHrp_head coin hc ((segwitAddrEncode_head hsegwit).symm.trans hhead)
  cases d with
  | p2pkh hash hlen =>
    cases d' with
    | p2pkh hash' hlen' =>
      obtain ⟨-, rfl⟩ := base58EncodeAddress_injective hlen hlen' hp2pkh hp2pkh h h'
      rfl
    | p2sh hash' hlen' =>
      exact absurd (base58EncodeAddress_injective hlen hlen' hp2pkh hp2sh h h').1 hne
    | witness version program => exact absurd h' (hheads hlen (.inl rfl) h)
  | p2sh hash hlen =>
    cases d' with
    | p2pkh hash' hlen' =>
      exact absurd (base58EncodeAddress_injective hlen' hlen hp2pkh hp2sh h' h).1 hne
    | p2sh hash' hlen' =>
      obtain ⟨-, rfl⟩ := base58EncodeAddress_injective hlen hlen' hp2sh hp2sh h h'
      rfl
    | witness version program => exact absurd h' (hheads hlen (.inr rfl) h)
  | witness version program =>
    cases d' with
    | p2pkh hash' hlen' => exact absurd h (hheads hlen' (.inl rfl) h')
    | p2sh hash' hlen' => exact absurd h (hheads hlen' (.inr rfl) h')
    | witness version' program' =>
      obtain ⟨rfl, rfl⟩ := segwitAddrEncode_injective h h'
      rfl

theorem head?_address {address : Bytes}
    (h : d.address crypto coin outLen = some address) : address.head? ≠ some 0x4F := by
  have hbase58 : ∀ {version : Nat} {hash : Bytes}, hash.length = 20 →
      version = coin.p2pkhVersion ∨ version = coin.p2shVersion →
      crypto.base58EncodeAddress hash version (outLen - 1) = some address → address.head? ≠ some 0x4F := by
    intro version hash hlen hversion hencode hcontra
    obtain ⟨c, hc, hhead⟩ := base58EncodeAddress_head hlen hversion hencode
    obtain rfl := Option.some.inj (hhead.symm.trans hcontra)
    exact absurd hc (by decide)
  cases d with
  | p2pkh hash hlen => exact hbase58 hlen (.inl rfl) h
  | p2sh hash hlen => exact hbase58 hlen (.inr rfl) h
  | witness version program =>
    rw [segwitAddrEncode_head h]
    cases coin <;> decide

theorem address_fits {address : Bytes} (hout : 91 ≤ outLen)
    (h : d.address crypto coin outLen = some address) :
    address.length < outLen ∧ ∀ c ∈ address, 0x20 < c := by
  have hbase58 : ∀ {version : Nat} {hash : Bytes},
      crypto.base58EncodeAddress hash version (outLen - 1) = some address →
      address.length < outLen ∧ ∀ c ∈ address, 0x20 < c := by
    intro version hash hencode
    obtain ⟨hlen, zeroCount, digits, htext⟩ := base58Encode_eq_some hencode
    refine ⟨by omega, fun c hc => ?_⟩
    rw [htext.text_eq] at hc
    exact (by decide +kernel : ∀ c ∈ base58Alphabet, 0x20 < c) c (mem_alphabet htext.all_lt hc)
  cases d with
  | p2pkh hash hlen => exact hbase58 h
  | p2sh hash hlen => exact hbase58 h
  | witness version program =>
    obtain ⟨-, enc, hencode⟩ := segwitAddrEncode_eq_some h
    obtain ⟨hlen, hdata, checksum, -, hlt, htext⟩ := bech32Encode_eq_some hencode
    refine ⟨by omega, fun c hc => ?_⟩
    rw [htext] at hc
    rcases mem_append.mp hc with hc | hc
    · exact nativeSegwitHrp_gt coin c hc
    rcases mem_cons.mp hc with rfl | hc
    · decide
    · exact (by decide +kernel : ∀ c ∈ bech32Charset, 0x20 < c) c (mem_alphabet (all_lt_charset hdata hlt) hc)

end Destination

theorem opreturnText_fits (hlen : ps.length ≤ 5)
    (hscript : (OP_RETURN :: ps.flatMap Push.script).length ≤ 83) :
    (opreturnText ps).length < maxOpreturnOutputDescSize ∧ ∀ c ∈ opreturnText ps, 0x20 ≤ c := by
  constructor
  · have htexts : ∀ ps : List Push, (ps.flatMap fun p => 0x20 :: p.text).length ≤
        ps.length + 2 * (ps.flatMap Push.script).length := by
      intro ps
      induction ps with
      | nil => exact Nat.le_refl _
      | cons p ps ih =>
        have hp := p.length_text_le
        simp only [flatMap_cons, length_append, length_cons]
        omega
    have hps := htexts ps
    have hprefix : (text "OP_RETURN").length = 9 := rfl
    rw [length_cons] at hscript
    rw [opreturnText, length_append, hprefix, maxOpreturnOutputDescSize]
    omega
  · intro c hc
    rcases mem_append.mp hc with hc | hc
    · exact (by decide +kernel : ∀ c ∈ text "OP_RETURN", 0x20 ≤ c) c hc
    · obtain ⟨p, -, hc⟩ := mem_flatMap.mp hc
      rcases mem_cons.mp hc with rfl | hc
      · decide
      · exact UInt8.le_of_lt (Push.text_gt hc)

theorem formatScript_eq_some {crypto : Crypto} {script : Bytes}
    (h : formatScript crypto coin script = some description) :
    (∃ d : Destination, script = d.script ∧
      d.address crypto coin (maxOutputScriptDescSize coin) = some description) ∨
    (script.length ≤ 83 ∧ ∃ ps : List Push, ps.length ≤ 5 ∧ script = OP_RETURN :: ps.flatMap Push.script ∧
      description = opreturnText ps) := by
  unfold formatScript at h
  cases haddress : getScriptAddress crypto coin script (maxOutputScriptDescSize coin) with
  | some address =>
    rw [haddress] at h
    cases h
    exact .inl (getScriptAddress_eq_some haddress)
  | none =>
    rw [haddress] at h
    simp only at h
    split_ifs at h
    exact .inr (formatOpscriptScript_eq_some h)

theorem formatScript_injective {crypto : Crypto} {script script' : Bytes}
    (h : formatScript crypto coin script = some description)
    (h' : formatScript crypto coin script' = some description) : script = script' := by
  have hhead : ∀ ps : List Push, (opreturnText ps).head? = some 0x4F := fun ps => rfl
  rcases formatScript_eq_some h with ⟨d, rfl, hd⟩ | ⟨-, ps, -, rfl, rfl⟩
  · rcases formatScript_eq_some h' with ⟨d', rfl, hd'⟩ | ⟨-, ps', -, rfl, rfl⟩
    · rw [Destination.address_injective hd hd']
    · exact absurd (hhead ps') (Destination.head?_address hd)
  · rcases formatScript_eq_some h' with ⟨d', rfl, hd'⟩ | ⟨-, ps', -, rfl, htext⟩
    · exact absurd (hhead ps) (Destination.head?_address hd')
    · rw [opreturnText_injective htext]

theorem formatScript_fits {crypto : Crypto} {script : Bytes}
    (h : formatScript crypto coin script = some description) :
    description.length < maxOutputScriptDescSize coin ∧ ∀ c ∈ description, 0x20 ≤ c := by
  have hsize : maxOutputScriptDescSize coin = maxOpreturnOutputDescSize := by cases coin <;> rfl
  rcases formatScript_eq_some h with ⟨d, -, hd⟩ | ⟨hlen, ps, hps, rfl, rfl⟩
  · obtain ⟨hfits, hgt⟩ := Destination.address_fits (by rw [hsize]; decide) hd
    exact ⟨hfits, fun c hc => UInt8.le_of_lt (hgt c hc)⟩
  · rw [hsize]
    exact opreturnText_fits hps hlen

/-- **Different scripts look different.** The texts of different scripts are different, and each fits
in the buffer with its terminator. -/
theorem formatScript_distinguishes {crypto : Crypto} {coin : Coin}
    {script script' description description' : Bytes}
    (h : formatScript crypto coin script = some description)
    (h' : formatScript crypto coin script' = some description') (hne : script ≠ script') :
    description ≠ description' ∧ ∀ shown ∈ [description, description'],
        shown.length + 1 ≤ maxOutputScriptDescSize coin ∧ 0 ∉ shown := by
  refine ⟨fun heq => hne (formatScript_injective h (heq ▸ h')), fun shown hshown => ?_⟩
  have hformat : ∃ script, formatScript crypto coin script = some shown := by
    rcases mem_cons.mp hshown with rfl | hshown
    · exact ⟨script, h⟩
    · rw [mem_singleton.mp hshown]
      exact ⟨script', h'⟩
  obtain ⟨script, hscript⟩ := hformat
  obtain ⟨hfits, hge⟩ := formatScript_fits hscript
  exact ⟨hfits, fun hzero => absurd (hge 0 hzero) (by decide)⟩

namespace TwoScripts

def crypto : Crypto where
  pubkeyVersion := 0x0488B21E
  sha256 := sha256Table []
  ripemd160 _ := replicate 20 0
  hmacSha512 _ _ := []
  addPoint _ _ := none
  addPointXonly _ _ := none
  pubkeyAtPath _ := none
  privkeyAtPath _ := none
  pubkeyOf _ := none
  ecdsaSign _ _ := none
  schnorrSign _ _ := none

def p2wpkh : Bytes := beBytes 22 0x0014751e76e8199196d454941c45d1b3a323f1433bd6

def opreturn : Bytes := beBytes 9 0x6a0568656c6c6f0060

theorem formats :
    formatScript crypto .bitcoin p2wpkh = some (text "bc1qw508d6qejxtdg4y5r3zarvary0c5xw7kv8f3t4") ∧
      formatScript crypto .bitcoin opreturn = some (text "OP_RETURN 0x68656c6c6f 0 16") ∧
      p2wpkh ≠ opreturn := by
  decide +kernel

end TwoScripts

theorem formatScript_distinguishes_twoScripts :
    text "bc1qw508d6qejxtdg4y5r3zarvary0c5xw7kv8f3t4" ≠ text "OP_RETURN 0x68656c6c6f 0 16" ∧
      ∀ shown ∈ [text "bc1qw508d6qejxtdg4y5r3zarvary0c5xw7kv8f3t4", text "OP_RETURN 0x68656c6c6f 0 16"],
        shown.length + 1 ≤ maxOutputScriptDescSize .bitcoin ∧ 0 ∉ shown :=
  formatScript_distinguishes TwoScripts.formats.1 TwoScripts.formats.2.1 TwoScripts.formats.2.2

end LedgerBabylon
