import LedgerBabylon.Lib.Exec
import LedgerBabylon.Common.Buffer

/-!
# The dispatcher: one buffer for requests and answers

A handler talks to the client through `G_io_apdu_buffer`. It assembles a response there, sends it
with `process_interruption`, and finds the client's next APDU in the same bytes; what the APDU does
not cover keeps its previous contents. The client is the list of APDUs it is going to send.
-/

namespace LedgerBabylon

open Endian

variable {sw : Nat} {u : Unit} {rdata : Bytes} {code : Int}

inductive Fault where
  | ret (code : Int) -- it returned this error code
  | ioReset -- no APDU arrived and EXCEPTION_IO_RESET was thrown
  | undefinedBehaviour
  | endless -- a loop or recursion that never ends
  deriving DecidableEq, Repr

structure Comm where
  apdu : Memory -- G_io_apdu_buffer and the memory after it
  outputLen : Nat -- G_output_len
  readBuffer : Buffer -- dc->read_buffer
  sw : Nat -- G_dispatcher_state.sw
  incoming : List Bytes -- the APDUs the client sends from here on
  sent : List Bytes -- the messages sent to the client so far
  hashed : List Bytes -- the strings hashed so far to walk up Merkle trees

variable {c c' : Comm}

abbrev Cmd := EStateM Fault Comm

def apduBufferSize : Nat := 260

-- requests of an interrupted command to the client
def CCMD_YIELD : UInt8 := 0x10
def CCMD_GET_PREIMAGE : UInt8 := 0x40
def CCMD_GET_MERKLE_LEAF_PROOF : UInt8 := 0x41
def CCMD_GET_MERKLE_LEAF_INDEX : UInt8 := 0x42
def CCMD_GET_MORE_ELEMENTS : UInt8 := 0xA0

def SW_INCORRECT_DATA : Nat := 0x6A80
def SW_WRONG_DATA_LENGTH : Nat := 0x6A87
def SW_WRONG_RESPONSE_LENGTH : Nat := 0xB000
def SW_INTERRUPTED_EXECUTION : Nat := 0xE000

def CLA_FRAMEWORK : UInt8 := 0xF8
def INS_CONTINUE : UInt8 := 0x01

def ioFinalizeResponse (sw : Nat) : Cmd Unit := modify fun c =>
    if c.outputLen ≥ apduBufferSize - 2 then
      { c with
        outputLen := apduBufferSize
        apdu := c.apdu.write (apduBufferSize - 2) (beBytes 2 SW_WRONG_RESPONSE_LENGTH) }
    else
      { c with
        apdu := c.apdu.write c.outputLen (beBytes 2 sw)
        outputLen := c.outputLen + 2 }

/-- `io_add_to_response` on the first `len` bytes at `rdata`. If they do not fit it calls itself with
the length `258 - len` modulo `2^32`, and a third call repeats the first. The move is undefined outside
of the data or the buffer. -/
def ioAddToResponseAux : Nat → Bytes → Nat → Cmd Unit
  | 0, _, _ => throw .endless
  | fuel + 1, rdata, len => do
    let c ← get
    if c.outputLen ≥ apduBufferSize - 2 then
      set { c with
        outputLen := apduBufferSize
        apdu := c.apdu.write (apduBufferSize - 2) (beBytes 2 SW_WRONG_RESPONSE_LENGTH) }
    else if (c.outputLen + len) % 2 ^ 32 > apduBufferSize - 2 then
      ioAddToResponseAux fuel rdata ((2 ^ 32 + (apduBufferSize - 2) - len) % 2 ^ 32)
      ioFinalizeResponse SW_WRONG_RESPONSE_LENGTH
    else if rdata.length < len ∨ apduBufferSize < c.outputLen + len then throw .undefinedBehaviour
    else
      set { c with
        apdu := c.apdu.write c.outputLen (rdata.take len)
        outputLen := c.outputLen + len }

def addToResponse (rdata : Bytes) : Cmd Unit := ioAddToResponseAux 2 rdata rdata.length

def finalizeResponse (sw : Nat) : Cmd Unit := do
  modify fun c => { c with sw := sw }
  ioFinalizeResponse sw

def sendResponse : Cmd Unit :=
  modify fun c => { c with sent := c.sent ++ [c.apdu.read 0 c.outputLen], outputLen := 0 }

def sendSw (sw : Nat) : Cmd Unit := do
  finalizeResponse sw
  sendResponse

def setResponse (rdata : Bytes) (sw : Nat) : Cmd Unit := do
  addToResponse rdata
  finalizeResponse sw

structure Command where
  cla : UInt8
  ins : UInt8
  p1 : UInt8
  p2 : UInt8
  lc : UInt8

def apduParser (buf : Memory) (bufLen : Nat) : Option Command :=
  if bufLen < 5 ∨ bufLen - 5 ≠ (buf 4).toNat then none
  else some ⟨buf 0, buf 1, buf 2, buf 3, buf 4⟩

def exchange : Cmd Nat := do
  let c ← get
  match c.incoming with
  | [] => throw .ioReset
  | msg :: rest =>
    set { c with
      sent := c.sent ++ [c.apdu.read 0 c.outputLen]
      apdu := c.apdu.write 0 msg
      incoming := rest }
    return msg.length

def processInterruption : Cmd Unit := do
  let inputLen ← exchange
  modify fun c => { c with outputLen := 0, sw := 0 }
  let c ← get
  match apduParser c.apdu inputLen with
  | none =>
    sendSw SW_WRONG_DATA_LENGTH
    throw (.ret (-1))
  | some cmd =>
    -- INS_CONTINUE is the only valid apdu here
    if cmd.cla ≠ CLA_FRAMEWORK ∨ cmd.ins ≠ INS_CONTINUE then
      sendSw SW_INCORRECT_DATA
      throw (.ret (-1))
    modify fun c => { c with readBuffer := Buffer.create 5 cmd.lc.toNat }

def readOr {α : Type} (code : Int) (f : Memory → Buffer → Option (α × Buffer)) : Cmd α := do
  let c ← get
  match f c.apdu c.readBuffer with
  | none => throw (.ret code)
  | some (a, b) =>
    set { c with readBuffer := b }
    return a

def orRet {α : Type} (code : Int) (x : Cmd α) : Cmd α := fun c =>
  match x c with
  | .error (.ret _) c' => .error (.ret code) c'
  | r => r

def require (code : Int) (cond : Bool) : Cmd Unit :=
  if cond then pure () else throw (.ret code)

def Comm.idle (incoming : List Bytes) : Comm where
  apdu := fun _ => 0
  outputLen := 0
  readBuffer := Buffer.create 5 0
  sw := 0
  incoming := incoming
  sent := []
  hashed := []

def continueApdu (data : Bytes) : Bytes :=
  CLA_FRAMEWORK :: INS_CONTINUE :: 0 :: 0 :: UInt8.ofNat data.length :: data

structure Comm.SameInput (c c' : Comm) : Prop where
  incoming : c'.incoming = c.incoming
  hashed : c'.hashed = c.hashed

theorem Comm.SameInput.trans {c'' : Comm} (h : c.SameInput c') (h' : c'.SameInput c'') : c.SameInput c'' :=
  ⟨h'.incoming.trans h.incoming, h'.hashed.trans h.hashed⟩

open Exec

theorem ioFinalizeResponse_sameInput (h : ioFinalizeResponse sw c = .ok u c') : c.SameInput c' := by
  rw [ioFinalizeResponse, modify_ok_iff] at h
  subst h
  split_ifs <;> exact ⟨rfl, rfl⟩

theorem ioAddToResponseAux_sameInput {fuel : Nat} {len : Nat} (h : ioAddToResponseAux fuel rdata len c = .ok u c') : c.SameInput c' := by
  induction fuel generalizing len c c' u with
  | zero => simp [ioAddToResponseAux] at h
  | succ fuel ih =>
    rw [ioAddToResponseAux, bind_ok_iff] at h
    obtain ⟨c0, c1, hget, h⟩ := h
    obtain ⟨rfl, rfl⟩ := get_ok_iff.mp hget
    split_ifs at h
    · rw [set_ok_iff] at h
      subst h
      exact ⟨rfl, rfl⟩
    · obtain ⟨_, c2, hrec, hfin⟩ := bind_ok h
      exact (ih hrec).trans (ioFinalizeResponse_sameInput hfin)
    · simp at h
    · rw [set_ok_iff] at h
      subst h
      exact ⟨rfl, rfl⟩

theorem addToResponse_sameInput (h : addToResponse rdata c = .ok u c') : c.SameInput c' :=
  ioAddToResponseAux_sameInput h

theorem finalizeResponse_sameInput (h : finalizeResponse sw c = .ok u c') : c.SameInput c' := by
  obtain ⟨_, c1, hmod, hfin⟩ := bind_ok h
  rw [modify_ok_iff] at hmod
  subst hmod
  have := ioFinalizeResponse_sameInput hfin
  exact ⟨this.incoming, this.hashed⟩

theorem setResponse_sameInput (h : setResponse rdata sw c = .ok u c') : c.SameInput c' := by
  obtain ⟨_, c1, hadd, hfin⟩ := bind_ok h
  exact (addToResponse_sameInput hadd).trans (finalizeResponse_sameInput hfin)

/-- A successful interruption: the client's next message, an `INS_CONTINUE` APDU, now is at the start of
the buffer, and its data part is read. -/
structure Interrupted (c c' : Comm) (msg : Bytes) : Prop where
  incoming : c.incoming = msg :: c'.incoming
  apdu : c'.apdu = c.apdu.write 0 msg
  outputLen : c'.outputLen = 0
  hashed : c'.hashed = c.hashed
  five_le : 5 ≤ msg.length
  lc : (c'.apdu 4).toNat = msg.length - 5
  readBuffer : c'.readBuffer = Buffer.create 5 (msg.length - 5)

theorem exchange_ok {n : Nat} (h : exchange c = .ok n c') :
    ∃ msg rest, c.incoming = msg :: rest ∧ n = msg.length
      ∧ c' = { c with
          sent := c.sent ++ [c.apdu.read 0 c.outputLen]
          apdu := c.apdu.write 0 msg
          incoming := rest } := by
  rw [exchange, get_bind_apply] at h
  cases hincoming : c.incoming with
  | nil => simp [hincoming] at h
  | cons msg rest =>
    simp only [hincoming] at h
    obtain ⟨_, c1, hset, hpure⟩ := bind_ok h
    rw [set_ok_iff] at hset
    obtain ⟨rfl, rfl⟩ := pure_ok hpure
    exact ⟨msg, rest, rfl, rfl, hset.symm⟩

theorem processInterruption_ok (h : processInterruption c = .ok u c') : ∃ msg, Interrupted c c' msg := by
  obtain ⟨inputLen, c1, hexchange, h⟩ := bind_ok h
  obtain ⟨msg, rest, hincoming, rfl, rfl⟩ := exchange_ok hexchange
  obtain ⟨_, c2, hreset, h⟩ := bind_ok h
  rw [get_bind_apply] at h
  rw [modify_ok_iff] at hreset
  subst hreset
  cases hparse : apduParser (c.apdu.write 0 msg) msg.length with
  | none =>
    simp only [hparse] at h
    obtain ⟨_, c5, _, hthrow⟩ := bind_ok h
    simp at hthrow
  | some cmd =>
    simp only [hparse] at h
    simp only [apduParser] at hparse
    split_ifs at hparse with hlen
    rw [not_or, not_not, not_lt] at hlen
    cases hparse
    split_ifs at h with hcla
    · obtain ⟨_, c5, _, hthrow⟩ := bind_ok h
      obtain ⟨_, c6, hthrow, _⟩ := bind_ok hthrow
      simp at hthrow
    · rw [modify_ok_iff] at h
      subst h
      exact ⟨msg, hincoming, rfl, rfl, rfl, hlen.1, hlen.2.symm, by rw [← hlen.2]⟩

theorem readOr_ok {α : Type} {f : Memory → Buffer → Option (α × Buffer)} {a : α} (h : readOr code f c = .ok a c') :
    ∃ b, f c.apdu c.readBuffer = some (a, b) ∧ c' = { c with readBuffer := b } := by
  rw [readOr, get_bind_apply] at h
  cases hf : f c.apdu c.readBuffer with
  | none => simp [hf] at h
  | some r =>
    obtain ⟨a', b⟩ := r
    simp only [hf] at h
    obtain ⟨_, c1, hset, hpure⟩ := bind_ok h
    rw [set_ok_iff] at hset
    obtain ⟨rfl, rfl⟩ := pure_ok hpure
    exact ⟨b, rfl, hset.symm⟩

@[simp] theorem require_ok_iff {cond : Bool} :
    require code cond c = .ok u c' ↔ cond ∧ c = c' := by
  cases cond <;> simp [require]

@[simp] theorem orRet_ok_iff {α : Type} {x : Cmd α} {a : α} :
    orRet code x c = .ok a c' ↔ x c = .ok a c' := by
  simp only [orRet]
  split <;> simp_all

theorem addToResponse_fits (hroom : c.outputLen < apduBufferSize - 2)
    (hfits : c.outputLen + rdata.length ≤ apduBufferSize - 2) :
    addToResponse rdata c = .ok () { c with
      apdu := c.apdu.write c.outputLen rdata
      outputLen := c.outputLen + rdata.length } := by
  have hcap : apduBufferSize = 260 := rfl
  have hsmall : (c.outputLen + rdata.length) % 2 ^ 32 = c.outputLen + rdata.length :=
    Nat.mod_eq_of_lt (by omega)
  rw [addToResponse, ioAddToResponseAux, get_bind_apply]
  rw [if_neg (by omega), if_neg (by omega), if_neg (by omega), set_ok_iff, List.take_length]

theorem finalizeResponse_fits (hroom : c.outputLen < apduBufferSize - 2) :
    finalizeResponse sw c = .ok () { c with
      sw := sw
      apdu := c.apdu.write c.outputLen (beBytes 2 sw)
      outputLen := c.outputLen + 2 } := by
  rw [finalizeResponse, bind_of_ok (a := ()) (modify_ok_iff.mpr rfl), ioFinalizeResponse, modify_ok_iff]
  exact if_neg (not_le.mpr hroom)

theorem setResponse_apdu (hempty : c.outputLen = 0) (hlen : rdata.length < apduBufferSize - 2)
    (h : setResponse rdata sw c = .ok u c') :
    c'.apdu = (c.apdu.write 0 rdata).write rdata.length (beBytes 2 sw) := by
  rw [setResponse, bind_of_ok (addToResponse_fits (by omega) (by omega)),
    finalizeResponse_fits (by simp only; omega)] at h
  cases h
  simp [hempty]

end LedgerBabylon
