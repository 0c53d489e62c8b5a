import LedgerBabylon.Boilerplate.Dispatcher

/-!
# Responses in parts

A response is put together by `io_add_to_response` and closed by `io_finalize_response`. A part that does
not fit makes `io_add_to_response` call itself for another number of bytes, which may not fit either, and
leaves a level from which more can be added. Whether a response ends well is a matter of the lengths of
its parts alone.
-/

namespace LedgerBabylon

open List Endian Exec

variable {c c' : Comm} {data rdata : Bytes} {len fill level : Nat} {sw : UInt16}

/-- Data whose length is a `size_t`. -/
abbrev Part := { data : Bytes // data.length < 2 ^ 32 }

variable {parts : List Part}

def ioResetResponse : Cmd Unit := modify fun c => { c with outputLen := 0 }

def addParts (parts : List Part) : Cmd Unit := parts.forM fun part => addToResponse part.1

def respond (parts : List Part) (sw : UInt16) : Cmd Unit := do
  ioResetResponse
  addParts parts
  ioFinalizeResponse sw.toNat

def Comm.response (c : Comm) : Bytes := c.apdu.read 0 c.outputLen

def contents (parts : List Part) : Bytes := (parts.map Subtype.val).flatten

/-- All calls return, with a length that the buffer holds. The status word follows data that fits, and
is `SW_WRONG_RESPONSE_LENGTH` if more was added. -/
structure SafeResponse (parts : List Part) (sw : UInt16) (c : Comm) : Prop where
  adds : ∀ k, ∃ c', (do ioResetResponse; addParts (parts.take k)) c = .ok () c'
    ∧ c'.outputLen ≤ apduBufferSize
  ends : ∃ c', respond parts sw c = .ok () c' ∧ c'.outputLen ≤ apduBufferSize
    ∧ if (contents parts).length ≤ apduBufferSize - 2 then
        c'.response = contents parts ++ beBytes 2 sw.toNat
      else beBytes 2 SW_WRONG_RESPONSE_LENGTH <:+ c'.response

/-- The level after a part of some length, if the call returns. -/
def fillAfter (fill len : Nat) : Option Nat :=
  if apduBufferSize - 2 ≤ fill then some apduBufferSize
  else if fill + len ≤ apduBufferSize - 2 then some (fill + len)
  else if fill ≤ len ∧ len ≤ apduBufferSize - 2 then some (fill + (apduBufferSize - len))
  else none

theorem fillAfter_le (h : fillAfter fill len = some level) : level ≤ apduBufferSize := by
  have hcap : apduBufferSize = 260 := rfl
  unfold fillAfter at h
  split_ifs at h <;> cases h <;> omega

def levelAfter (x : Cmd Unit) (c : Comm) : Option Nat :=
  match x c with
  | .ok _ c' => some c'.outputLen
  | .error _ _ => none

def finalLevel (level : Nat) : Nat := if level ≥ apduBufferSize - 2 then apduBufferSize else level + 2

theorem levelAfter_succ (fuel : Nat) (rdata : Bytes) (len : Nat) (c : Comm) :
    levelAfter (ioAddToResponseAux (fuel + 1) rdata len) c =
      if c.outputLen ≥ apduBufferSize - 2 then some apduBufferSize
      else if (c.outputLen + len) % 2 ^ 32 > apduBufferSize - 2 then
        (levelAfter (ioAddToResponseAux fuel rdata ((2 ^ 32 + (apduBufferSize - 2) - len) % 2 ^ 32)) c).map
          finalLevel
      else if rdata.length < len ∨ apduBufferSize < c.outputLen + len then none
      else some (c.outputLen + len) := by
  rw [levelAfter, ioAddToResponseAux, get_bind_apply]
  split_ifs with hfull hover hmove
  · rfl
  · unfold levelAfter
    cases hrec : ioAddToResponseAux fuel rdata ((2 ^ 32 + (apduBufferSize - 2) - len) % 2 ^ 32) c with
    | ok u c' =>
      rw [bind_of_ok hrec]
      show some (if c'.outputLen ≥ apduBufferSize - 2 then _ else _ : Comm).outputLen = some (finalLevel _)
      unfold finalLevel
      split_ifs <;> rfl
    | error fault c' => rw [bind_of_error hrec]; rfl
  · rfl
  · rfl

theorem levelAfter_addToResponse (part : Part) (c : Comm) :
    levelAfter (addToResponse part.1) c = fillAfter c.outputLen part.1.length := by
  have hcap : apduBufferSize = 260 := rfl
  have hsize := part.2
  have hzero (len : Nat) : levelAfter (ioAddToResponseAux 0 part.1 len) c = none := rfl
  rw [addToResponse, levelAfter_succ, levelAfter_succ, hzero]
  unfold fillAfter
  split_ifs <;> try first | rfl | omega
  -- the second call is for `258` less the length, and that fits
  rw [Option.map_some, Option.some.injEq, finalLevel]
  split_ifs <;> omega

theorem levelAfter_addParts (parts : List Part) (c : Comm) :
    levelAfter (addParts parts) c = (parts.map fun part => part.1.length).foldlM fillAfter c.outputLen := by
  induction parts generalizing c with
  | nil => rfl
  | cons part parts ih =>
    have hpart := levelAfter_addToResponse part c
    rw [map_cons, foldlM_cons, ← hpart]
    have hcons : addParts (part :: parts) = addToResponse part.1 >>= fun _ => addParts parts := rfl
    rw [hcons]
    unfold levelAfter
    cases hadd : addToResponse part.1 c with
    | ok u c' =>
      rw [bind_of_ok hadd]
      exact ih c'
    | error fault c' =>
      rw [bind_of_error hadd]
      rfl

theorem addParts_ok (h : addParts parts c = .ok () c') :
    (parts.map fun part => part.1.length).foldlM fillAfter c.outputLen = some c'.outputLen := by
  rw [← levelAfter_addParts, levelAfter, h]

theorem addParts_of_fill
    (h : (parts.map fun part => part.1.length).foldlM fillAfter c.outputLen = some level) :
    ∃ c', addParts parts c = .ok () c' ∧ c'.outputLen = level := by
  rw [← levelAfter_addParts] at h
  unfold levelAfter at h
  cases hadd : addParts parts c with
  | ok u c' =>
    rw [hadd] at h
    exact ⟨c', rfl, Option.some.inj h⟩
  | error fault c' => simp [hadd] at h

theorem foldlM_fillAfter_le {lengths : List Nat} (hfill : fill ≤ apduBufferSize)
    (h : lengths.foldlM fillAfter fill = some level) : level ≤ apduBufferSize := by
  induction lengths generalizing fill with
  | nil =>
    cases h
    exact hfill
  | cons len lengths ih =>
    obtain ⟨next, hnext, hrest⟩ := Option.bind_eq_some_iff.mp h
    exact ih (fillAfter_le hnext) hrest

/-- The response so far, with a status word after it if nothing more can be added. -/
structure Collected (c : Comm) (data : Bytes) : Prop where
  bytes : c.apdu.read 0 data.length = data
  level : c.outputLen = data.length ∨ data.length = apduBufferSize - 2 ∧ c.outputLen = apduBufferSize

theorem Collected.add (h : Collected c data) (hfits : (data ++ rdata).length ≤ apduBufferSize - 2) :
    ∃ c', addToResponse rdata c = .ok () c' ∧ Collected c' (data ++ rdata) := by
  have hcap : apduBufferSize = 260 := rfl
  have hlevel := h.level
  rw [length_append] at hfits
  by_cases hroom : c.outputLen < apduBufferSize - 2
  · have hlen : c.outputLen = data.length := by omega
    refine ⟨_, addToResponse_fits hroom (by omega), ?_, .inl (by simp [hlen])⟩
    rw [length_append, Memory.read_add, hlen, Memory.read_write_outside _ (.inl (by omega)), h.bytes,
      Nat.zero_add, Memory.read_write_same _ rfl]
  · obtain rfl : rdata = [] := length_eq_zero_iff.mp (by omega)
    refine ⟨{ c with
      outputLen := apduBufferSize
      apdu := c.apdu.write (apduBufferSize - 2) (beBytes 2 SW_WRONG_RESPONSE_LENGTH) }, ?_, ?_,
      .inr ⟨by rw [append_nil]; omega, rfl⟩⟩
    · rw [addToResponse, ioAddToResponseAux, get_bind_apply, if_pos (not_lt.mp hroom), set_ok_iff]
    · rw [append_nil, Memory.read_write_outside _ (.inl (by omega)), h.bytes]

theorem Collected.addParts (h : Collected c data) (hfits : (data ++ contents parts).length ≤ apduBufferSize - 2) :
    ∃ c', addParts parts c = .ok () c' ∧ Collected c' (data ++ contents parts) := by
  induction parts generalizing c data with
  | nil => exact ⟨c, rfl, by simpa [contents] using h⟩
  | cons part parts ih =>
    have hcontents : contents (part :: parts) = part.1 ++ contents parts := rfl
    rw [hcontents, ← append_assoc] at hfits ⊢
    have hfits1 : (data ++ part.1).length ≤ apduBufferSize - 2 := by
      rw [length_append] at hfits
      omega
    obtain ⟨c1, hadd, h1⟩ := h.add hfits1
    obtain ⟨c2, hrest, h2⟩ := ih h1 hfits
    exact ⟨c2, (bind_of_ok hadd).trans hrest, h2⟩

theorem ioFinalizeResponse_room (sw : Nat) (h : c.outputLen < apduBufferSize - 2) :
    ∃ c', ioFinalizeResponse sw c = .ok () c' ∧ c'.outputLen ≤ apduBufferSize
      ∧ c'.response = c.response ++ beBytes 2 sw := by
  refine ⟨_, modify_ok_iff.mpr (if_neg (not_le.mpr h)), by simp only; omega, ?_⟩
  rw [Comm.response, Memory.read_add, Memory.read_write_outside _ (.inl (by omega)), Nat.zero_add,
    Memory.read_write_same _ (length_beBytes 2 sw)]
  rfl

theorem ioFinalizeResponse_full (sw : Nat) (h : apduBufferSize - 2 ≤ c.outputLen) :
    ∃ c', ioFinalizeResponse sw c = .ok () c' ∧ c'.outputLen ≤ apduBufferSize ∧ c'.response
        = c.apdu.read 0 (apduBufferSize - 2) ++ beBytes 2 SW_WRONG_RESPONSE_LENGTH := by
  refine ⟨_, modify_ok_iff.mpr (if_pos h), le_rfl, ?_⟩
  show (c.apdu.write (apduBufferSize - 2) _).read 0 (apduBufferSize - 2 + 2) = _
  rw [Memory.read_add, Memory.read_write_outside _ (.inl (by omega)), Nat.zero_add,
    Memory.read_write_same _ (length_beBytes 2 _)]

/-- Every call returns, and unless the status word says so anyway, there is room left exactly if all the
data fits. -/
def EndsWell (lengths : List Nat) (sw : UInt16) : Prop :=
  ∃ level, lengths.foldlM fillAfter 0 = some level ∧ (sw.toNat = SW_WRONG_RESPONSE_LENGTH
      ∨ (lengths.sum ≤ apduBufferSize - 2 ↔ level < apduBufferSize - 2))

theorem sw_eq_of_suffix (h : beBytes 2 SW_WRONG_RESPONSE_LENGTH <:+ data ++ beBytes 2 sw.toNat) :
    sw.toNat = SW_WRONG_RESPONSE_LENGTH := by
  obtain ⟨front, happend⟩ := h
  have hbytes := append_inj_right' happend (by simp)
  have hvalue := congrArg beNat hbytes
  have hlt : sw.toNat < 256 ^ 2 := sw.toNat_lt
  rw [beNat_beBytes, beNat_beBytes, Nat.mod_eq_of_lt (by decide), Nat.mod_eq_of_lt hlt] at hvalue
  exact hvalue.symm

theorem length_contents (parts : List Part) :
    (contents parts).length = (parts.map fun part => part.1.length).sum := by
  rw [contents, length_flatten, map_map]
  rfl

theorem respond_ends (sw : UInt16) (hadd : addParts parts { c with outputLen := 0 } = .ok () c') :
    ∃ c'', respond parts sw c = .ok () c'' ∧ c''.outputLen ≤ apduBufferSize ∧
      ((if (contents parts).length ≤ apduBufferSize - 2 then
          c''.response = contents parts ++ beBytes 2 sw.toNat
        else beBytes 2 SW_WRONG_RESPONSE_LENGTH <:+ c''.response)
      ↔ sw.toNat = SW_WRONG_RESPONSE_LENGTH
        ∨ ((contents parts).length ≤ apduBufferSize - 2 ↔ c'.outputLen < apduBufferSize - 2)) := by
  have hrespond : respond parts sw c = ioFinalizeResponse sw.toNat c' := bind_of_ok hadd
  have hcollected (hfits : (contents parts).length ≤ apduBufferSize - 2) : Collected c' (contents parts) := by
    have hreset : Collected { c with outputLen := 0 } [] := ⟨rfl, .inl rfl⟩
    obtain ⟨_, hadd', h⟩ := hreset.addParts hfits
    rw [hadd] at hadd'
    cases hadd'
    exact h
  by_cases hroom : c'.outputLen < apduBufferSize - 2
  · obtain ⟨c'', hfinal, hle, hresponse⟩ := ioFinalizeResponse_room sw.toNat hroom
    refine ⟨c'', hrespond.trans hfinal, hle, ?_⟩
    simp only [hresponse, hroom, iff_true]
    split_ifs with hfits
    · have h := hcollected hfits
      have hlevel : c'.outputLen = (contents parts).length := by
        have := h.level
        omega
      rw [Comm.response, hlevel, h.bytes]
      exact iff_of_true rfl (.inr hfits)
    · constructor
      · exact fun h => .inl (sw_eq_of_suffix h)
      · rintro (h | h)
        · rw [h]
          exact suffix_append _ _
        · exact absurd h hfits
  · obtain ⟨c'', hfinal, hle, hresponse⟩ := ioFinalizeResponse_full sw.toNat (not_lt.mp hroom)
    refine ⟨c'', hrespond.trans hfinal, hle, ?_⟩
    simp only [hresponse, hroom, iff_false]
    split_ifs with hfits
    · have h := hcollected hfits
      have hlength : apduBufferSize - 2 = (contents parts).length := by
        have := h.level
        omega
      rw [hlength, h.bytes, append_cancel_left_eq]
      constructor
      · intro heq
        have hsuffix : beBytes 2 SW_WRONG_RESPONSE_LENGTH <:+ [] ++ beBytes 2 sw.toNat := ⟨[], heq⟩
        exact .inl (sw_eq_of_suffix hsuffix)
      · rintro (h | h)
        · rw [h]
        · exact absurd le_rfl h
    · exact iff_of_true (suffix_append _ _) (.inr hfits)

theorem SafeResponse.addParts_ok (h : SafeResponse parts sw c) :
    ∃ c', addParts parts { c with outputLen := 0 } = .ok () c' := by
  obtain ⟨c', hadd, -⟩ := h.adds parts.length
  rw [take_length] at hadd
  exact ⟨c', hadd⟩

/-- **Responses in parts.** They are safe exactly for the lengths, and status words, that end well. -/
theorem safeResponse_iff (parts : List Part) (sw : UInt16) (c : Comm) :
    SafeResponse parts sw c ↔ EndsWell (parts.map fun part => part.1.length) sw := by
  constructor
  · intro h
    obtain ⟨c', hadd⟩ := h.addParts_ok
    obtain ⟨c'', hrespond, -, hends⟩ := respond_ends sw hadd
    obtain ⟨c1, hrespond1, -, hends1⟩ := h.ends
    rw [hrespond] at hrespond1
    cases hrespond1
    refine ⟨c'.outputLen, addParts_ok hadd, ?_⟩
    rw [← length_contents]
    exact hends.mp hends1
  · rintro ⟨level, hlevel, hcases⟩
    constructor
    · intro k
      rw [← take_append_drop k parts, map_append, foldlM_append] at hlevel
      obtain ⟨levelₖ, hk, -⟩ := Option.bind_eq_some_iff.mp hlevel
      obtain ⟨c', hadd, rfl⟩ := addParts_of_fill (c := { c with outputLen := 0 }) hk
      exact ⟨c', hadd, foldlM_fillAfter_le (Nat.zero_le _) hk⟩
    · obtain ⟨c', hadd, rfl⟩ := addParts_of_fill (c := { c with outputLen := 0 }) hlevel
      obtain ⟨c'', hrespond, hle, hends⟩ := respond_ends sw hadd
      rw [← length_contents] at hcases
      exact ⟨c'', hrespond, hle, hends.mpr hcases⟩

theorem ioAddToResponseAux_endless (hroom : c.outputLen < apduBufferSize - 2) (hlen : len < c.outputLen)
    (hover : apduBufferSize - 2 < c.outputLen + len) (fuel : Nat) :
    ioAddToResponseAux fuel rdata len c = .error .endless c := by
  have hcap : apduBufferSize = 260 := rfl
  induction fuel generalizing len with
  | zero => rfl
  | succ fuel ih =>
    have hnext : (2 ^ 32 + (apduBufferSize - 2) - len) % 2 ^ 32 = apduBufferSize - 2 - len := by omega
    rw [ioAddToResponseAux, get_bind_apply, if_neg (by omega), if_pos (by omega), hnext]
    exact bind_of_error (ih (by omega) (by omega))

def zeros (n : Nat) (h : n < 2 ^ 32) : Part := ⟨replicate n 0, by rwa [length_replicate]⟩

/-- 100 bytes after 200: the second call never returns, however often it calls itself. -/
theorem not_safeResponse_zeros :
    ¬SafeResponse [zeros 200 (by decide), zeros 100 (by decide)] 0x9000 (.idle [])
      ∧ ∀ fuel, ioAddToResponseAux fuel (replicate 100 0) 100 { Comm.idle [] with outputLen := 200 }
        = .error .endless { Comm.idle [] with outputLen := 200 } := by
  refine ⟨fun h => ?_, ioAddToResponseAux_endless (by simp [apduBufferSize]) (by simp)
    (by simp [apduBufferSize])⟩
  obtain ⟨c', hadd⟩ := h.addParts_ok
  have hlevel := addParts_ok hadd
  simp only [map_cons, zeros, length_replicate] at hlevel
  simp [fillAfter, apduBufferSize] at hlevel

end LedgerBabylon
