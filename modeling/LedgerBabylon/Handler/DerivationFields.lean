import LedgerBabylon.Handler.Clients

/-!
# Derivation fields

The value of a derivation field ends with a fingerprint and derivation steps, which for taproot follow
the hashes of leaves. It is streamed in pieces, and `extract_bip32_derivation` keeps its last bytes in an
array of 36 bytes. Bytes of earlier pieces are moved from one position too far, so that only an end that
arrives in one piece is read right, and the length of fields without hashes is not checked at all.
-/

namespace LedgerBabylon

open List Endian Exec

variable {valuesRoot : Digest} {index : UInt32} {c c' : Comm} {s : DerivationStream} {p stack : Bytes}

structure DerivationField where
  hashes : List Digest
  fingerprint : UInt32
  steps : List UInt32

namespace DerivationField

variable (field : DerivationField)

def derivation : Bytes :=
  beBytes 4 field.fingerprint.toNat ++ field.steps.flatMap fun step => leBytes 4 step.toNat

def leafHashes (isTap : Bool) : Bytes :=
  if isTap then varintWrite field.hashes.length ++ field.hashes.flatMap Digest.bytes else []

def value (isTap : Bool) : Bytes := field.leafHashes isTap ++ field.derivation

theorem length_derivation : field.derivation.length = 4 * (1 + field.steps.length) := by
  simp [derivation, length_flatMap]
  omega

theorem length_value_tap : (field.value true).length =
      varintSize field.hashes.length + 32 * field.hashes.length + field.derivation.length := by
  have hhashes : (field.hashes.flatMap Digest.bytes).length = 32 * field.hashes.length := by
    rw [length_flatMap, map_congr_left fun d _ => d.length_bytes]
    simp
    omega
  simp only [value, leafHashes, if_true, length_append, length_varintWrite, hhashes]

theorem leWords_steps (steps : List UInt32) :
    leWords (steps.flatMap fun step => leBytes 4 step.toNat) = steps := by
  induction steps with
  | nil => rfl
  | cons step steps ih =>
    have hstep : leNat (leBytes 4 step.toNat) = step.toNat := by
      rw [leNat_leBytes]
      exact Nat.mod_eq_of_lt step.toNat_lt
    have hwords (bytes rest : Bytes) (h : bytes.length = 4) :
        leWords (bytes ++ rest) = UInt32.ofNat (leNat bytes) :: leWords rest := by
      match bytes, h with
      | [a, b, c, d], _ => rfl
    rw [flatMap_cons, hwords _ _ (length_leBytes 4 _), hstep, ih, UInt32.ofNat_toNat]

theorem readFingerprintAndSteps_derivation :
    readFingerprintAndSteps field.derivation = (field.fingerprint, field.steps) := by
  have hfingerprint : beNat (beBytes 4 field.fingerprint.toNat) = field.fingerprint.toNat := by
    rw [beNat, beBytes, reverse_reverse, leNat_leBytes]
    exact Nat.mod_eq_of_lt field.fingerprint.toNat_lt
  rw [readFingerprintAndSteps, derivation, take_left' (length_beBytes 4 _),
    drop_left' (length_beBytes 4 _), hfingerprint, leWords_steps, UInt32.ofNat_toNat]

theorem derivation_readFingerprintAndSteps {bytes : Bytes} {k : Nat}
    (h : bytes.length = 4 * (1 + k)) (hashes : List Digest) :
    (⟨hashes, (readFingerprintAndSteps bytes).1, (readFingerprintAndSteps bytes).2⟩ :
      DerivationField).derivation = bytes := by
  have hword (word : Bytes) (hword : word.length = 4) : (UInt32.ofNat (leNat word)).toNat = leNat word := by
    have hlt := leNat_lt word
    rw [hword] at hlt
    exact UInt32.toNat_ofNat_of_lt' hlt
  have hsteps {rest : Bytes} (hrest : rest.length = 4 * k) :
      (leWords rest).flatMap (fun step => leBytes 4 step.toNat) = rest := by
    clear h
    induction k generalizing rest with
    | zero =>
      obtain rfl := length_eq_zero_iff.mp hrest
      rfl
    | succ k ih =>
      match rest, hrest with
      | a :: b :: c :: d :: rest, hrest =>
        have hbytes : leBytes 4 (leNat [a, b, c, d]) = [a, b, c, d] := leBytes_leNat [a, b, c, d]
        rw [leWords, flatMap_cons, hword _ rfl, hbytes, ih]
        · rfl
        · simp only [length_cons] at hrest
          omega
  have hhead : (bytes.take 4).length = 4 := by
    rw [length_take]
    omega
  have hfingerprint : beBytes 4 (UInt32.ofNat (beNat (bytes.take 4))).toNat = bytes.take 4 := by
    have hreverse : (bytes.take 4).reverse.length = 4 := by rw [length_reverse, hhead]
    rw [beNat, hword _ hreverse, beBytes]
    nth_rewrite 1 [← hreverse]
    rw [leBytes_leNat, reverse_reverse]
  rw [derivation, readFingerprintAndSteps]
  dsimp only
  rw [hfingerprint, hsteps (by rw [length_drop]; omega), take_append_drop]

end DerivationField

/-- The length that is announced for an element, and the pieces that the callbacks see. -/
def streamedPieces (sha256 : Bytes → Digest) (valuesRoot : Digest) (size index : UInt32) :
    Cmd (Nat × Nat × List Bytes) :=
  callStreamMerkleLeafElement sha256 valuesRoot size index (fun len _ => (len, []))
    (fun m data s => (s.1, s.2 ++ [m.read data.ptr data.size])) (0, [])

theorem streamedPieces_ok {sha256 : Bytes → Digest} {size : UInt32} {n total : Nat} {pieces : List Bytes}
    (h : streamedPieces sha256 valuesRoot size index c = .ok (n, total, pieces) c') :
    total + 1 < 2 ^ 31 ∧ pieces ≠ [] := by
  obtain ⟨hash, c1, -, h⟩ := bind_ok h
  obtain ⟨first, preimageLen, len, partialLen, cs, hstreamed⟩ := callStreamPreimage_ok sha256 h
  have hfold (cs : List (Memory × Nat)) {s s' : Nat × List Bytes} (hs : s.2 ≠ [])
      (hs' : s' = cs.foldl (fun t k => (t.1, t.2 ++ [k.1.read 7 k.2])) s) : s'.1 = s.1 ∧ s'.2 ≠ [] := by
    induction cs generalizing s with
    | nil => exact ⟨congrArg Prod.fst hs', by rwa [hs']⟩
    | cons k cs ih => exact ih (s := (s.1, s.2 ++ [k.1.read 7 k.2])) (by simp) hs'
  obtain ⟨htotal, hpieces⟩ := hfold cs (by simp) hstreamed.value_eq
  have hlt := hstreamed.length_lt
  dsimp only at htotal
  exact ⟨by omega, hpieces⟩

namespace DerivationStream

def result (s : DerivationStream) : Cmd (UInt32 × List UInt32) :=
  if s.undefinedBehaviour then throw .undefinedBehaviour
  else do
    let len := s.outDataLength.getD 0
    require (-1) (!s.failed && 4 ≤ len && len % 4 = 0)
    return readFingerprintAndSteps (s.out.take len)

def start (total : Nat) (stack : Bytes) : DerivationStream := ⟨total, none, stack, false, false⟩

end DerivationStream

theorem extractBip32Derivation_of_pieces {sha256 : Bytes → Digest}
    {size : UInt32} {n total : Nat} {pieces : List Bytes}
    (h : streamedPieces sha256 valuesRoot size index c = .ok (n, total, pieces) c') (stack : Bytes)
    (keyType : UInt8) :
    extractBip32Derivation sha256 stack keyType valuesRoot size index c =
      (pieces.foldl (DerivationStream.callback (isTapDerivation keyType))
        (.start total stack)).result c' := by
  have hstream : callStreamMerkleLeafElement sha256 valuesRoot size index
      (fun len s => { s with totalDataLength := len })
      (fun m data s => s.callback (isTapDerivation keyType) (m.read data.ptr data.size))
      (⟨0, none, stack, false, false⟩ : DerivationStream) =
        (fun r => (r.1, r.2.2.foldl (DerivationStream.callback (isTapDerivation keyType))
          (.start r.2.1 stack))) <$> streamedPieces sha256 valuesRoot size index := by
    rw [streamedPieces, callStreamMerkleLeafElement, callStreamMerkleLeafElement, map_bind]
    congr 1
    funext hash
    apply callStreamPreimage_map (h := fun s : Nat × List Bytes =>
      s.2.foldl (DerivationStream.callback (isTapDerivation keyType)) (.start s.1 stack))
    · intro n
      rfl
    · intro m b t
      rw [foldl_append]
      rfl
  have hok : orRet (-1) (callStreamMerkleLeafElement sha256 valuesRoot size index
      (fun len s => { s with totalDataLength := len })
      (fun m data s => s.callback (isTapDerivation keyType) (m.read data.ptr data.size))
      (⟨0, none, stack, false, false⟩ : DerivationStream)) c = .ok (n, pieces.foldl
        (DerivationStream.callback (isTapDerivation keyType)) (.start total stack)) c' := by
    rw [orRet_ok_iff, hstream]
    show EStateM.map _ _ c = _
    simp only [EStateM.map, h]
  rw [extractBip32Derivation, bind_of_ok hok]
  rfl

namespace DerivationStream

variable {isTap : Bool} {total n : Nat} {out data : Bytes} {pieces : List Bytes}

def running (total n : Nat) (out : Bytes) : DerivationStream := ⟨total, some n, out, false, false⟩

def slide (n : Nat) (out data : Bytes) : Bytes :=
  if n ≤ data.length then data.drop (data.length - n) ++ out.drop n
  else (out.drop (data.length + 1)).take (n - data.length) ++ data ++ out.drop n

/-- A piece is kept within the array if that has room for one byte more, or the piece is long enough. -/
def Fits (n : Nat) (data : Bytes) : Prop := n < 36 ∨ n = 36 ∧ n ≤ data.length

theorem callback_running (hout : out.length = 36) (hfits : Fits n data) :
    (running total n out).callback isTap data = running total n (slide n out data) := by
  show (running total n out).keep data = running total n (slide n out data)
  simp only [keep, running, slide, hout]
  rcases hfits with hn | ⟨rfl, hdata⟩
  · rw [if_neg (by omega), if_neg (show ¬36 ≤ n by omega)]
    split_ifs with hlong
    · rfl
    · rw [show n - (n - data.length) = data.length by omega]
  · rw [if_neg (by omega), if_pos hdata, if_pos hdata]

theorem slide_eq_append (hout : out.length = 36) (hfits : Fits n data) :
    ∃ kept, kept.length = n ∧ slide n out data = kept ++ out.drop n := by
  unfold slide
  rcases hfits with hn | ⟨rfl, hdata⟩
  · split_ifs with hlong
    · exact ⟨_, by rw [length_drop]; omega, rfl⟩
    · refine ⟨_, ?_, rfl⟩
      simp only [length_append, length_take, length_drop, hout]
      omega
  · rw [if_pos hdata]
    exact ⟨_, by rw [length_drop]; omega, rfl⟩

theorem length_slide (hout : out.length = 36) (hfits : Fits n data) : (slide n out data).length = 36 := by
  obtain ⟨kept, hkept, heq⟩ := slide_eq_append hout hfits
  unfold Fits at hfits
  rw [heq, length_append, length_drop, hkept, hout]
  omega

theorem drop_slide (hout : out.length = 36) (hfits : Fits n data) :
    (slide n out data).drop n = out.drop n := by
  obtain ⟨kept, hkept, heq⟩ := slide_eq_append hout hfits
  rw [heq, drop_left' hkept]

theorem take_slide_of_le (h : n ≤ data.length) : (slide n out data).take n = data.drop (data.length - n) := by
  rw [slide, if_pos h, take_left']
  rw [length_drop]
  omega

theorem getElem_slide_of_lt (hn : n < 36) (hout : out.length = 36) (h : data.length < n) :
    (slide n out data)[n - data.length - 1]? = out[n]? := by
  rw [slide, if_neg (by omega), append_assoc, getElem?_append_left, getElem?_take_of_lt, getElem?_drop]
  · congr 1
    omega
  · omega
  · rw [length_take, length_drop]
    omega

variable (isTap total) in
theorem foldl_running (hout : out.length = 36) (hfits : ∀ p ∈ pieces, Fits n p) :
    pieces.foldl (callback isTap) (running total n out) = running total n (pieces.foldl (slide n) out) ∧
      (pieces.foldl (slide n) out).length = 36 ∧ (pieces.foldl (slide n) out).drop n = out.drop n := by
  induction pieces generalizing out with
  | nil => exact ⟨rfl, hout, rfl⟩
  | cons p pieces ih =>
    rw [forall_mem_cons] at hfits
    obtain ⟨hfold, hlen, hdrop⟩ := ih (length_slide hout hfits.1) hfits.2
    rw [drop_slide hout hfits.1] at hdrop
    exact ⟨by rw [foldl_cons, callback_running hout hfits.1, hfold, foldl_cons], hlen, hdrop⟩

theorem foldl_of_ended (h : (s.failed || s.undefinedBehaviour)) :
    pieces.foldl (callback isTap) s = s := by
  induction pieces with
  | nil => rfl
  | cons p pieces ih => rw [foldl_cons, callback, if_pos h, ih]

theorem foldl_undefinedBehaviour (hout : out.length = 36) (hfits : ∃ p ∈ pieces, ¬Fits n p) :
    (pieces.foldl (callback isTap) (running total n out)).undefinedBehaviour := by
  induction pieces generalizing out with
  | nil => simp at hfits
  | cons p pieces ih =>
    by_cases hp : Fits n p
    · rw [foldl_cons, callback_running hout hp]
      apply ih (length_slide hout hp)
      obtain ⟨q, hq, hnot⟩ := hfits
      rcases mem_cons.mp hq with rfl | hq
      · exact absurd hp hnot
      · exact ⟨q, hq, hnot⟩
    · have hub : (running total n out).callback isTap p = ⟨total, some n, out, false, true⟩ := by
        show (running total n out).keep p = _
        unfold Fits at hp
        simp only [keep, running, hout]
        by_cases hn : 36 < n
        · rw [if_pos hn]
        · rw [if_neg hn, if_neg (by omega), if_pos (by omega)]
      rw [foldl_cons, hub, foldl_of_ended rfl]

theorem foldl_start (h : (start total stack).setLength isTap p = running total n stack) :
    (p :: pieces).foldl (callback isTap) (start total stack) =
      (p :: pieces).foldl (callback isTap) (running total n stack) := by
  have hfirst : (start total stack).callback isTap p = (running total n stack).callback isTap p := by
    show (if _ then _ else _) = (running total n stack).keep p
    rw [h]
    rfl
  rw [foldl_cons, foldl_cons, hfirst]

theorem foldl_start_of_failed
    (h : (start total stack).setLength isTap p = { start total stack with failed := true }) :
    (p :: pieces).foldl (callback isTap) (start total stack) = { start total stack with failed := true } := by
  have hfirst : (start total stack).callback isTap p = { start total stack with failed := true } := by
    show (if _ then _ else _) = _
    rw [h]
    rfl
  rw [foldl_cons, hfirst, foldl_of_ended rfl]

theorem readVarint_of_short {m : Nat} {rest : Bytes} (h : p <+: varintWrite m ++ rest)
    (hshort : p.length < varintSize m) :
    Buffer.readVarint (Memory.ofList p) (Buffer.create 0 p.length) = none := by
  suffices hnone : varintRead (Memory.ofList p) 0 p.length = none by
    simp [Buffer.readVarint, Buffer.create, Buffer.cur, hnone]
  cases p with
  | nil => rfl
  | cons b p =>
    have hb : (varintWrite m ++ rest).head? = some b := by
      obtain ⟨q, hq⟩ := h
      rw [← hq]
      rfl
    have hlead : Memory.ofList (b :: p) 0 = b := rfl
    unfold varintWrite at hb
    unfold varintSize at hb hshort
    simp only [length_cons] at hshort
    unfold varintRead
    rw [hlead, if_neg (by simp)]
    split_ifs at hb hshort with h1 h2 h3
    · omega
    all_goals
      obtain rfl : _ = b := Option.some.inj hb
      simp
      omega

theorem toInt_of_lt {n : Nat} (h : n < 2 ^ 31) : toInt n = n := by
  have hmod : n % 2 ^ 32 = n := Nat.mod_eq_of_lt (by omega)
  rw [toInt, hmod, if_pos h]

theorem setLength_tap {field : DerivationField} (hp : p <+: field.value true)
    (htotal : (field.value true).length + 1 < 2 ^ 31) (stack : Bytes) :
    (start (field.value true).length stack).setLength true p =
      if varintSize field.hashes.length ≤ p.length ∧ field.derivation.length ≤ 36 then
        running (field.value true).length field.derivation.length stack
      else { start (field.value true).length stack with failed := true } := by
  have hvalue : field.value true =
      varintWrite field.hashes.length ++ (field.hashes.flatMap Digest.bytes ++ field.derivation) := by
    simp [DerivationField.value, DerivationField.leafHashes]
  have hlen := field.length_value_tap
  show (start (field.value true).length stack).tapLength p = _
  by_cases hsize : varintSize field.hashes.length ≤ p.length
  · obtain ⟨rest, rfl⟩ : varintWrite field.hashes.length <+: p := by
      apply prefix_of_prefix_length_le ⟨_, hvalue.symm⟩ hp
      rwa [length_varintWrite]
    have hcount : field.hashes.length < 2 ^ 64 := by omega
    obtain ⟨b, hread, -⟩ := (Buffer.unread_ofList (varintWrite field.hashes.length ++ rest)).readVarint hcount
    have hhashes : toInt field.hashes.length = field.hashes.length := toInt_of_lt (by omega)
    have hall : toInt (field.value true).length = (field.value true).length := toInt_of_lt (by omega)
    simp only [tapLength, hread, start, running, hhashes, hall, hsize, true_and]
    have hout : ((field.value true).length : Int) - varintSize field.hashes.length -
        32 * field.hashes.length = field.derivation.length := by omega
    rw [hout, if_neg (by omega)]
    by_cases hfits : field.derivation.length ≤ 36
    · rw [if_neg, if_pos hfits, Int.toNat_natCast]
      simp only [maxBip32PathSteps]
      omega
    · rw [if_pos, if_neg hfits]
      simp only [maxBip32PathSteps]
      omega
  · rw [if_neg fun h => hsize h.1, tapLength, readVarint_of_short (hvalue ▸ hp) (by omega)]

theorem result_running (hn : 4 ≤ n ∧ n % 4 = 0) :
    (running total n out).result c = .ok (readFingerprintAndSteps (out.take n)) c := by
  simp [result, running, require, hn]

theorem result_failed :
    ({ start total stack with failed := true } : DerivationStream).result c = .error (.ret (-1)) c := rfl

theorem result_undefinedBehaviour (h : s.undefinedBehaviour) :
    s.result c = .error .undefinedBehaviour c := by
  rw [result, if_pos h]
  rfl

end DerivationStream

namespace DerivationField

variable (field : DerivationField)

/-- The fingerprint and the steps are returned if there are not too many steps, else an error. -/
def Extracted (result : EStateM.Result Fault Comm (UInt32 × List UInt32)) : Prop :=
  if field.steps.length ≤ maxBip32PathSteps then ∃ c, result = .ok (field.fingerprint, field.steps) c
  else ∃ code c, result = .error (.ret code) c

/-- The pieces in which a field is read right: the number of hashes in the first piece, the whole
derivation in the last one, and every piece as long as a derivation that fills the array. A field with
too many steps has hashes. -/
def ReadableIn (isTap : Bool) (pieces : List Bytes) : Prop :=
  if field.steps.length ≤ maxBip32PathSteps then
    (isTap → varintSize field.hashes.length ≤ (pieces.headD []).length) ∧
    field.derivation.length ≤ (pieces.getLastD []).length ∧
    (field.steps.length = maxBip32PathSteps → ∀ p ∈ pieces, field.derivation.length ≤ p.length)
  else isTap

instance (isTap : Bool) (pieces : List Bytes) : Decidable (field.ReadableIn isTap pieces) :=
  inferInstanceAs (Decidable (if field.steps.length ≤ maxBip32PathSteps then _ ∧ _ ∧ (_ → _) else _))

end DerivationField

open DerivationStream

section

variable {field : DerivationField} {isTap : Bool} {pieces : List Bytes}

theorem DerivationField.last_piece {last : Bytes} (hvalue : (pieces ++ [last]).flatten = field.value isTap)
    (hlast : field.derivation.length ≤ last.length) :
    last.drop (last.length - field.derivation.length) = field.derivation := by
  have hdrop := congrArg (fun bytes => bytes.drop (bytes.length - field.derivation.length)) hvalue
  rw [flatten_append, flatten_singleton, DerivationField.value] at hdrop
  rw [length_append, length_append, Nat.add_sub_cancel, drop_left, Nat.add_sub_assoc hlast,
    drop_length_add_append] at hdrop
  exact hdrop

theorem DerivationField.extracted_running_iff {total : Nat} {out : Bytes}
    (hsteps : field.steps.length ≤ maxBip32PathSteps) (hout : field.derivation.length ≤ out.length) :
    field.Extracted ((running total field.derivation.length out).result c) ↔
      out.take field.derivation.length = field.derivation := by
  have hlen := field.length_derivation
  rw [DerivationField.Extracted, if_pos hsteps, result_running (by omega)]
  constructor
  · rintro ⟨c', h⟩
    obtain ⟨hread, -⟩ := EStateM.Result.ok.inj h
    have hback := DerivationField.derivation_readFingerprintAndSteps
      (k := field.steps.length) ((length_take_of_le hout).trans hlen) field.hashes
    rw [hread] at hback
    exact hback.symm
  · intro h
    rw [h, field.readFingerprintAndSteps_derivation]
    exact ⟨c, rfl⟩

/-- The part is read right from every array exactly if it is within the last piece. -/
theorem running_extracted_iff (hvalue : pieces.flatten = field.value isTap) (hne : pieces ≠ [])
    (hsteps : field.steps.length ≤ maxBip32PathSteps) (total : Nat) (c : Comm) :
    (∀ stack : Bytes, stack.length = 36 → field.Extracted ((pieces.foldl (callback isTap)
      (running total field.derivation.length stack)).result c)) ↔
    field.derivation.length ≤ (pieces.getLastD []).length ∧
      (field.steps.length = maxBip32PathSteps → ∀ p ∈ pieces, field.derivation.length ≤ p.length) := by
  have hlen := field.length_derivation
  have hmax : maxBip32PathSteps = 8 := rfl
  by_cases hfits : ∀ p ∈ pieces, Fits field.derivation.length p
  · have hfull : field.steps.length = maxBip32PathSteps → ∀ p ∈ pieces, field.derivation.length ≤ p.length := by
      intro hfull p hp
      rcases hfits p hp with hlt | ⟨-, hle⟩
      · omega
      · exact hle
    rw [and_iff_left hfull]
    obtain ⟨init, last, rfl⟩ := (eq_nil_or_concat' pieces).resolve_left hne
    rw [forall_mem_append] at hfits
    have hlast : Fits field.derivation.length last := hfits.2 last (mem_singleton_self last)
    rw [getLastD_concat]
    -- the array after the pieces before the last one
    have hextracted {stack : Bytes} (hstack : stack.length = 36) :
        ∃ out : Bytes, out.length = 36 ∧ out.drop field.derivation.length =
            stack.drop field.derivation.length ∧
          (field.Extracted (((init ++ [last]).foldl (callback isTap)
            (running total field.derivation.length stack)).result c) ↔
          (slide field.derivation.length out last).take field.derivation.length = field.derivation) := by
      obtain ⟨hfold, hout, hdrop⟩ := foldl_running isTap total hstack hfits.1
      refine ⟨_, hout, hdrop, ?_⟩
      rw [foldl_append, hfold, foldl_cons, foldl_nil, callback_running hout hlast]
      apply DerivationField.extracted_running_iff hsteps
      rw [length_slide hout hlast]
      omega
    constructor
    · intro h
      by_contra hshort
      have hn : field.derivation.length < 36 := by
        unfold Fits at hlast
        omega
      -- a byte behind the part that is not the one of the derivation at the position it is moved to
      obtain ⟨b, hb⟩ : ∃ b : UInt8,
          field.derivation[field.derivation.length - last.length - 1]? ≠ some b := by
        by_contra hall
        push Not at hall
        exact absurd ((hall 0).symm.trans (hall 1)) (by decide)
      obtain ⟨out, hout, hdrop, hiff⟩ := hextracted (length_replicate (n := 36) (a := b))
      have hmoved := getElem_slide_of_lt hn hout (Nat.lt_of_not_le hshort)
      have hbehind : out[field.derivation.length]? = some b := by
        have hhead := congrArg head? hdrop
        rwa [head?_drop, head?_drop, getElem?_replicate_of_lt hn] at hhead
      have hkept := congrArg (·[field.derivation.length - last.length - 1]?) (hiff.mp (h _ length_replicate))
      rw [getElem?_take_of_lt (by omega), hmoved, hbehind] at hkept
      exact hb hkept.symm
    · intro hle stack hstack
      obtain ⟨out, -, -, hiff⟩ := hextracted hstack
      rw [hiff, take_slide_of_le hle]
      exact DerivationField.last_piece hvalue hle
  · push Not at hfits
    constructor
    · intro h
      have hstack := h (replicate 36 0) (length_replicate)
      rw [result_undefinedBehaviour (foldl_undefinedBehaviour length_replicate hfits),
        DerivationField.Extracted, if_pos hsteps] at hstack
      simp at hstack
    · rintro ⟨-, hfull⟩
      obtain ⟨p, hp, hnot⟩ := hfits
      unfold Fits at hnot
      have hle := hfull (by omega) p hp
      omega

theorem extracted_iff_of_running {total : Nat} (hvalue : (p :: pieces).flatten = field.value isTap)
    (hset : ∀ stack, (start total stack).setLength isTap p =
      running total field.derivation.length stack) (c : Comm) :
    (∀ stack : Bytes, stack.length = 36 → field.Extracted (((p :: pieces).foldl (callback isTap)
      (start total stack)).result c)) ↔
    field.steps.length ≤ maxBip32PathSteps ∧ field.derivation.length ≤ ((p :: pieces).getLastD []).length ∧
      (field.steps.length = maxBip32PathSteps → ∀ q ∈ p :: pieces, field.derivation.length ≤ q.length) := by
  simp only [foldl_start (hset _)]
  by_cases hsteps : field.steps.length ≤ maxBip32PathSteps
  · rw [and_iff_right hsteps]
    exact running_extracted_iff hvalue (cons_ne_nil p pieces) hsteps total c
  · rw [iff_false_right fun h => hsteps h.1]
    intro h
    have hlen := field.length_derivation
    have hmax : maxBip32PathSteps = 8 := rfl
    have hfits : ¬Fits field.derivation.length p := by
      unfold Fits
      omega
    have hstack := h (replicate 36 0) length_replicate
    rw [result_undefinedBehaviour (foldl_undefinedBehaviour length_replicate
      ⟨p, mem_cons_self, hfits⟩), DerivationField.Extracted, if_neg hsteps] at hstack
    simp at hstack

theorem extracted_iff_of_failed {total : Nat}
    (hset : ∀ stack, (start total stack).setLength isTap p = { start total stack with failed := true })
    (c : Comm) :
    (∀ stack : Bytes, stack.length = 36 → field.Extracted (((p :: pieces).foldl (callback isTap)
      (start total stack)).result c)) ↔ ¬field.steps.length ≤ maxBip32PathSteps := by
  simp only [foldl_start_of_failed (hset _), result_failed, DerivationField.Extracted]
  constructor
  · intro h hsteps
    have hstack := h (replicate 36 0) length_replicate
    rw [if_pos hsteps] at hstack
    simp at hstack
  · intro hsteps stack _
    rw [if_neg hsteps]
    exact ⟨-1, c, rfl⟩

/-- A field is read right for every contents of the array exactly if its pieces allow it. -/
theorem foldl_extracted_iff (hvalue : pieces.flatten = field.value isTap) (hne : pieces ≠ [])
    (htotal : (field.value isTap).length + 1 < 2 ^ 31) (c : Comm) :
    (∀ stack : Bytes, stack.length = 36 → field.Extracted ((pieces.foldl (callback isTap)
      (start (field.value isTap).length stack)).result c)) ↔ field.ReadableIn isTap pieces := by
  obtain ⟨p, ps, rfl⟩ := exists_cons_of_ne_nil hne
  have hlen := field.length_derivation
  have hmax : maxBip32PathSteps = 8 := rfl
  unfold DerivationField.ReadableIn
  cases isTap with
  | false =>
    have hall : field.value false = field.derivation := by
      simp [DerivationField.value, DerivationField.leafHashes]
    rw [extracted_iff_of_running hvalue fun stack => by rw [hall]; rfl]
    split_ifs with hsteps
    · simp [hsteps]
    · simp [hsteps]
  | true =>
    have hprefix : p <+: field.value true := ⟨ps.flatten, hvalue⟩
    have hset := setLength_tap hprefix htotal
    by_cases hknown : varintSize field.hashes.length ≤ p.length ∧ field.derivation.length ≤ 36
    · have hsteps : field.steps.length ≤ maxBip32PathSteps := by omega
      rw [extracted_iff_of_running hvalue fun stack => (hset stack).trans (if_pos hknown), if_pos hsteps]
      simp [hsteps, hknown.1]
    · rw [extracted_iff_of_failed fun stack => (hset stack).trans (if_neg hknown)]
      split_ifs with hsteps
      · have hshort : ¬varintSize field.hashes.length ≤ p.length := fun h => hknown ⟨h, by omega⟩
        simp [hsteps, hshort]
      · simp [hsteps]

end

/-- **A derivation field is read right, whatever the array held before, exactly if the client sends it in
such pieces.** -/
theorem extractBip32Derivation_extracted_iff {sha256 : Bytes → Digest} {valuesRoot : Digest}
    {size index : UInt32} {keyType : UInt8} {c c' : Comm} {n : Nat} {pieces : List Bytes}
    {field : DerivationField} (hvalue : pieces.flatten = field.value (isTapDerivation keyType))
    (hstream : streamedPieces sha256 valuesRoot size index c = .ok (n, pieces.flatten.length, pieces) c') :
    (∀ stack : Bytes, stack.length = 36 → field.Extracted
      (extractBip32Derivation sha256 stack keyType valuesRoot size index c)) ↔
    field.ReadableIn (isTapDerivation keyType) pieces := by
  obtain ⟨htotal, hne⟩ := streamedPieces_ok hstream
  rw [hvalue] at hstream htotal
  simp only [extractBip32Derivation_of_pieces hstream]
  exact foldl_extracted_iff hvalue hne htotal c'

namespace TapField

def field : DerivationField :=
  ⟨[.ofNat 0x1111111111111111111111111111111111111111111111111111111111111111], 0xf5acc2fd, [0x80000056, 0x80000001]⟩

def leafHash : Digest := .ofNat 0x3b529a9d84fef55e907f1171e0a78aa260ab3456e7a81bb4643355295cdaa5cf

def sha256 : Bytes → Digest := sha256Table [(0x00 :: field.value true, leafHash)]

def oneAnswer : Comm :=
  .idle [continueApdu (leafHash.bytes ++ [0, 0]), continueApdu ([46, 46, 0x00] ++ field.value true)]

def twoAnswers : Comm := .idle [continueApdu (leafHash.bytes ++ [0, 0]),
    continueApdu ([46, 40, 0x00] ++ (field.value true).take 39),
    continueApdu ([6, 1] ++ (field.value true).drop 39)]

theorem oneAnswer_pieces :
    returned? (streamedPieces sha256 leafHash 1 0) oneAnswer = some (45, 45, [field.value true]) := by
  decide +kernel

theorem twoAnswers_pieces : returned? (streamedPieces sha256 leafHash 1 0) twoAnswers =
      some (45, 45, [(field.value true).take 39, (field.value true).drop 39]) := by
  decide +kernel

end TapField

open TapField in
theorem extractBip32Derivation_extracted_iff_oneAnswer :
    returned? (streamedPieces sha256 leafHash 1 0) oneAnswer = some (45, 45, [field.value true]) ∧
    ∀ stack : Bytes, stack.length = 36 →
      field.Extracted (extractBip32Derivation sha256 stack 0x16 leafHash 1 0 oneAnswer) := by
  have hvalue : [field.value true].flatten = field.value (isTapDerivation 0x16) :=
    append_nil (field.value true)
  refine ⟨oneAnswer_pieces, ?_⟩
  refine (extractBip32Derivation_extracted_iff hvalue (ok_of_returned? oneAnswer_pieces)).mpr ?_
  decide +kernel

open TapField in
/-- With the second answer, the fingerprint is moved by one byte and mixed with the array's contents. -/
theorem not_extractBip32Derivation_extracted : (∃ c', streamedPieces sha256 leafHash 1 0 twoAnswers =
      .ok (45, 45, [(field.value true).take 39, (field.value true).drop 39]) c') ∧
    [(field.value true).take 39, (field.value true).drop 39].flatten = field.value true ∧
    field.steps.length ≤ maxBip32PathSteps ∧
    returned? (extractBip32Derivation sha256 (replicate 36 0x77) 0x16 leafHash 1 0) twoAnswers =
      some (0xacc2fd56, [0x80007700, 0x80000001]) ∧
    ¬field.Extracted (extractBip32Derivation sha256 (replicate 36 0x77) 0x16 leafHash 1 0 twoAnswers) := by
  have hread : returned? (extractBip32Derivation sha256 (replicate 36 0x77) 0x16 leafHash 1 0)
      twoAnswers = some (0xacc2fd56, [0x80007700, 0x80000001]) := by decide +kernel
  refine ⟨⟨_, ok_of_returned? twoAnswers_pieces⟩, by decide +kernel, by decide, hread, ?_⟩
  rw [DerivationField.Extracted, if_pos (by decide), ok_of_returned? hread]
  rintro ⟨c', h⟩
  exact absurd (EStateM.Result.ok.inj h).1 (by decide)

end LedgerBabylon
