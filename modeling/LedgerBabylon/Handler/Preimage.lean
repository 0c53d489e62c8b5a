import LedgerBabylon.Common.Merkle

/-!
# Fetching the preimage of a hash

The client answers `GET_PREIMAGE` with the length of the preimage and its first bytes, and sends the
rest in answers to `GET_MORE_ELEMENTS`. The three functions of this module hash the bytes they
receive and compare the digest with the requested hash; they differ in what they hand to their
caller.
-/

namespace LedgerBabylon

open Exec Buffer List

section

variable {τ : Type} (sha256 : Bytes → Digest)

def requestPreimage (hash : Digest) : Cmd Unit := do
  addToResponse [CCMD_GET_PREIMAGE]
  addToResponse [0]
  addToResponse hash.bytes
  finalizeResponse SW_INTERRUPTED_EXECUTION

def readPreimageHeader : Cmd (Nat × Nat) := do
  let preimageLen ← readOr (-2) Buffer.readVarint
  let partialDataLen ← readOr (-2) Buffer.readU8
  let c ← get
  require (-2) (c.readBuffer.canRead partialDataLen.toNat)
  return (preimageLen, partialDataLen.toNat)

/-- Ask for more bytes. The four ways to fail have consecutive codes from `code` down. -/
def moreBytes (code : Int) (bytesRemaining : Nat) : Cmd Nat := do
  setResponse [CCMD_GET_MORE_ELEMENTS] SW_INTERRUPTED_EXECUTION
  orRet code processInterruption
  let nBytes ← readOr (code - 1) Buffer.readU8
  let elementsLen ← readOr (code - 1) Buffer.readU8
  let c ← get
  require (code - 1) (c.readBuffer.canRead (nBytes.toNat * elementsLen.toNat))
  require (code - 2) (elementsLen = 1)
  require (code - 3) (nBytes.toNat ≤ bytesRemaining)
  return nBytes.toNat

/-- The loop over further answers: each is hashed at the read position, and `use` sees the memory, that
position and the number of bytes. -/
def receiveChunks (code : Int) (use : Memory → Nat → Nat → τ → τ) : Nat → Nat → Bytes → τ → Cmd (Bytes × τ)
  | 0, _, _, _ => throw .ioReset
  | fuel + 1, bytesRemaining, stream, t =>
    if bytesRemaining = 0 then return (stream, t)
    else do
      let nBytes ← moreBytes code bytesRemaining
      let c ← get
      let stream := stream ++ c.apdu.read c.readBuffer.cur nBytes
      let t := use c.apdu c.readBuffer.cur nBytes t
      receiveChunks code use fuel (bytesRemaining - nBytes) stream t

def checkDigest (code : Int) (hash : Digest) (stream : Bytes) : Cmd Unit := do
  modify fun c => { c with hashed := c.hashed ++ [stream] }
  require code (sha256 stream = hash)

/-- `buffer_write_bytes` into an output of `outLen` bytes: data that do not fit are dropped. -/
def writeOut (outLen : Nat) (out data : Bytes) : Bytes :=
  if out.length + data.length ≤ outLen then out ++ data else out

/-- A C `int` made from a 32-bit number; a negative one is an error code to the callers. -/
def returnInt (value : Nat) : Cmd Unit :=
  if value % 2 ^ 32 < 2 ^ 31 then pure () else throw (.ret ((value % 2 ^ 32 : Nat) - 2 ^ 32))

def returnIntPred (value : Nat) : Cmd Nat :=
  if value = 2 ^ 31 then throw .undefinedBehaviour
  else if 2 ^ 31 < value then throw (.ret ((value : Int) - 2 ^ 32 - 1))
  else pure (value - 1)

/-- `call_get_merkle_preimage`: the bytes written to the output, without the leading byte. Later answers
are hashed where they stand but copied from the position of the first answer's data. -/
def callGetMerklePreimage (hash : Digest) (outLen : Nat) : Cmd Bytes := do
  requestPreimage hash
  processInterruption
  let (preimageLen, partialDataLen) ← readPreimageHeader
  require (-3) (preimageLen ≠ 0 && partialDataLen ≠ 0)
  require (-4) (preimageLen - 1 ≤ outLen)
  require (-5) (partialDataLen ≤ preimageLen)
  let c ← get
  let dataPtr := c.readBuffer.cur
  let stream := c.apdu.read dataPtr partialDataLen
  let out := writeOut outLen [] (c.apdu.read (dataPtr + 1) (partialDataLen - 1))
  let (stream, out) ← receiveChunks (-6) (fun m _ nBytes out => writeOut outLen out (m.read dataPtr nBytes))
    (c.incoming.length + 1) (preimageLen - partialDataLen) stream out
  checkDigest sha256 (-10) hash stream
  returnInt (preimageLen - 1)
  return out

/-- `call_get_preimage`: the bytes written to the output, which may be too short for the preimage,
and the returned length. -/
def callGetPreimage (hash : Digest) (outLen : Nat) : Cmd (Nat × Bytes) := do
  requestPreimage hash
  processInterruption
  let (preimageLen64, partialDataLen) ← readPreimageHeader
  let preimageLen := preimageLen64 % 2 ^ 32
  require (-3) (1 ≤ preimageLen)
  require (-4) (partialDataLen ≤ preimageLen)
  let c ← get
  let chunk := c.apdu.read c.readBuffer.cur partialDataLen
  let (stream, out) ← receiveChunks (-5)
    (fun m dataPtr nBytes out => writeOut outLen out (m.read dataPtr nBytes))
    (c.incoming.length + 1) (preimageLen - partialDataLen) chunk (writeOut outLen [] chunk)
  checkDigest sha256 (-9) hash stream
  returnInt preimageLen
  return (preimageLen, out)

/-- `call_stream_preimage`: the callbacks see the preimage without its leading byte, one buffer per
answer. Without data in the first answer, the first buffer has size `2^32 - 1`. -/
def callStreamPreimage (hash : Digest) (lenCallback : Nat → τ → τ)
    (callback : Memory → Buffer → τ → τ) (t : τ) : Cmd (Nat × τ) := do
  requestPreimage hash
  processInterruption
  let (preimageLen64, partialDataLen) ← readPreimageHeader
  let preimageLen := preimageLen64 % 2 ^ 32
  require (-3) (1 ≤ preimageLen)
  require (-4) (partialDataLen ≤ preimageLen)
  let t := lenCallback (preimageLen - 1) t
  let c ← get
  let dataPtr := c.readBuffer.cur
  let stream := c.apdu.read dataPtr partialDataLen
  let t := callback c.apdu (Buffer.create (dataPtr + 1) ((partialDataLen + (2 ^ 32 - 1)) % 2 ^ 32)) t
  let (stream, t) ← receiveChunks (-5) (fun m dataPtr nBytes t => callback m (Buffer.create dataPtr nBytes) t)
    (c.incoming.length + 1) (preimageLen - partialDataLen) stream t
  checkDigest sha256 (-9) hash stream
  let n ← returnIntPred preimageLen
  return (n, t)

variable {τ' : Type}

variable {use : Memory → Nat → Nat → τ → τ} {h : τ → τ'} {lenCallback : Nat → τ → τ}
  {callback : Memory → Buffer → τ → τ} {t t' : τ} {code : Int}
  {remaining n outLen preimageLen partialLen len : Nat} {c c' : Comm} {u : Unit} {out : Bytes}
  {cs : List (Memory × Nat)}

theorem receiveChunks_map {use' : Memory → Nat → Nat → τ' → τ'}
    (huse : ∀ m dataPtr n t, h (use m dataPtr n t) = use' m dataPtr n (h t)) (code : Int)
    (fuel bytesRemaining : Nat) (stream : Bytes) (t : τ) :
    receiveChunks code use' fuel bytesRemaining stream (h t) =
      (fun r => (r.1, h r.2)) <$> receiveChunks code use fuel bytesRemaining stream t := by
  induction fuel generalizing bytesRemaining stream t with
  | zero => rfl
  | succ fuel ih =>
    rw [receiveChunks, receiveChunks]
    split_ifs
    · rfl
    · simp only [map_bind, ← huse, ih]

theorem callStreamPreimage_map {lenCallback' : Nat → τ' → τ'} {callback' : Memory → Buffer → τ' → τ'}
    {t' : τ'} (hlen : ∀ n, h (lenCallback n t) = lenCallback' n t')
    (hcallback : ∀ m b t, h (callback m b t) = callback' m b (h t)) (hash : Digest) :
    callStreamPreimage sha256 hash lenCallback' callback' t' =
      (fun r => (r.1, h r.2)) <$> callStreamPreimage sha256 hash lenCallback callback t := by
  have hchunks := receiveChunks_map (fun m dataPtr n t => hcallback m (create dataPtr n) t) (-5)
  simp only [callStreamPreimage, map_bind, ← hlen, ← hcallback, hchunks, bind_map_left, map_pure]

/-- The chunks of a transfer with `remaining` bytes to come: the memory after each answer, and the
number of bytes in it, at address 7. -/
def chunks : List Bytes → Nat → Memory → List (Memory × Nat)
  | [], _, _ => []
  | msg :: rest, remaining, m =>
    if remaining = 0 then []
    else
      let m' := m.write 0 msg
      (m', (m' 5).toNat) :: chunks rest (remaining - (m' 5).toNat) m'

structure GotMore (c c' : Comm) (remaining n : Nat) (msg : Bytes) : Prop where
  incoming : c.incoming = msg :: c'.incoming
  apdu : c'.apdu = c.apdu.write 0 msg
  outputLen : c'.outputLen = 0
  hashed : c'.hashed = c.hashed
  count : n = (c'.apdu 5).toNat
  count_le : n ≤ remaining
  cur : c'.readBuffer.cur = 7
  inside : 7 + n ≤ msg.length

theorem moreBytes_ok (hempty : c.outputLen = 0)
    (h : moreBytes code remaining c = .ok n c') : ∃ msg, GotMore c c' remaining n msg := by
  simp only [moreBytes, bind_ok_iff, orRet_ok_iff, get_ok_iff, require_ok_iff, pure_ok_iff] at h
  obtain ⟨_, c1, hset, _, c2, hinterrupt, nBytes, c3, hn, len, c4, hlen, _, _, ⟨rfl, rfl⟩, _, _,
    ⟨hcan, rfl⟩, _, _, ⟨hone, rfl⟩, _, _, ⟨hle, rfl⟩, rfl, rfl⟩ := h
  obtain ⟨msg, hmsg⟩ := processInterruption_ok hinterrupt
  obtain ⟨b1, hb1, rfl⟩ := readOr_ok hn
  obtain ⟨b2, hb2, rfl⟩ := readOr_ok hlen
  obtain ⟨hnval, hptr1, hsize1, hoff1⟩ := take_eq_some hb1
  obtain ⟨-, hptr2, hsize2, hoff2⟩ := take_eq_some hb2
  simp only [hmsg.readBuffer, create, cur, Nat.add_zero] at hnval hptr1 hsize1 hoff1
  simp only at hptr2 hsize2 hoff2
  have hlenone : len.toNat = 1 := by simpa using congrArg UInt8.toNat (of_decide_eq_true hone)
  rw [canRead_iff, hlenone] at hcan
  simp only at hcan
  have hsame := setResponse_sameInput hset
  have hapdu : c2.apdu = c.apdu.write 0 msg := by
    have hfive := hmsg.five_le
    rw [hmsg.apdu, setResponse_apdu hempty (by decide) hset, Memory.write_covered _ (by simp; omega),
      Memory.write_covered _ (by simp; omega)]
  refine ⟨msg, hsame.incoming.symm.trans hmsg.incoming, hapdu, hmsg.outputLen,
    hmsg.hashed.trans hsame.hashed, congrArg UInt8.toNat hnval, of_decide_eq_true hle, ?_, ?_⟩
  · simp only [cur]
    omega
  · have hfive := hmsg.five_le
    omega

/-- The hashed string, the caller's value and the log after the chunks, each of which is inside its
message. -/
structure Received (use : Memory → Nat → Nat → τ → τ) (cs : List (Memory × Nat)) (remaining : Nat)
    (stream : Bytes) (t : τ) (c : Comm) (stream' : Bytes) (t' : τ) (c' : Comm) : Prop where
  stream_eq : stream' = stream ++ (cs.map fun k => k.1.read 7 k.2).flatten
  value_eq : t' = cs.foldl (fun t k => use k.1 7 k.2 t) t
  total : (cs.map Prod.snd).sum = remaining
  inside : List.Forall₂ (fun k msg => 7 + k.2 ≤ msg.length) cs (c.incoming.take cs.length)
  hashed : c'.hashed = c.hashed

theorem receiveChunks_ok {fuel : Nat} {stream stream' : Bytes} (hempty : c.outputLen = 0)
    (h : receiveChunks code use fuel remaining stream t c = .ok (stream', t') c') :
    Received use (chunks c.incoming remaining c.apdu) remaining stream t c stream' t' c' := by
  induction fuel generalizing remaining stream t c with
  | zero => simp [receiveChunks] at h
  | succ fuel ih =>
    rw [receiveChunks] at h
    split_ifs at h with hdone
    · obtain ⟨heq, rfl⟩ := pure_ok h
      cases heq
      subst hdone
      have hnone : chunks c.incoming 0 c.apdu = [] := by
        cases c.incoming <;> simp [chunks]
      rw [hnone]
      exact ⟨by simp, rfl, rfl, .nil, rfl⟩
    · simp only [bind_ok_iff, get_ok_iff] at h
      obtain ⟨n, c1, hmore, _, _, ⟨rfl, rfl⟩, h⟩ := h
      obtain ⟨msg, hmsg⟩ := moreBytes_ok hempty hmore
      have hrest := ih hmsg.outputLen h
      have hchunks : chunks c.incoming remaining c.apdu
          = (c1.apdu, n) :: chunks c1.incoming (remaining - n) c1.apdu := by
        rw [hmsg.incoming, chunks, if_neg hdone, ← hmsg.apdu, hmsg.count]
      rw [hchunks]
      refine ⟨?_, ?_, ?_, ?_, hrest.hashed.trans hmsg.hashed⟩
      · rw [hrest.stream_eq, hmsg.cur]
        simp
      · rw [hrest.value_eq, hmsg.cur]
        rfl
      · have hle := hmsg.count_le
        rw [map_cons, sum_cons, hrest.total]
        omega
      · rw [hmsg.incoming, length_cons, take_succ_cons]
        exact .cons hmsg.inside hrest.inside

theorem returnInt_ok {value : Nat} (h : returnInt value c = .ok u c') : c = c' := by
  simp only [returnInt] at h
  split_ifs at h
  · exact (pure_ok h).2
  · simp at h

theorem returnIntPred_ok {value : Nat} (h : returnIntPred value c = .ok n c') :
    value < 2 ^ 31 ∧ n = value - 1 ∧ c = c' := by
  simp only [returnIntPred] at h
  split_ifs at h
  · simp at h
  · simp at h
  · obtain ⟨rfl, rfl⟩ := pure_ok h
    exact ⟨by omega, rfl, rfl⟩

theorem length_flatten_read (cs : List (Memory × Nat)) (addr : Nat) :
    (cs.map fun k => k.1.read addr k.2).flatten.length = (cs.map Prod.snd).sum := by
  simp [length_flatten, Function.comp_def]

theorem foldl_writeOut {addr : Nat} (hfits : out.length + (cs.map Prod.snd).sum ≤ outLen) :
    cs.foldl (fun out k => writeOut outLen out (k.1.read addr k.2)) out
      = out ++ (cs.map fun k => k.1.read addr k.2).flatten := by
  induction cs generalizing out with
  | nil => simp
  | cons k cs ih =>
    simp only [map_cons, sum_cons] at hfits
    have hk : writeOut outLen out (k.1.read addr k.2) = out ++ k.1.read addr k.2 := by
      rw [writeOut, if_pos (by simp only [Memory.length_read]; omega)]
    rw [foldl_cons, hk, ih (by simp only [length_append, Memory.length_read]; omega)]
    simp

def requestMemory (hash : Digest) (c : Comm) : Memory := (finalState (requestPreimage hash) c).apdu

/-- The header of the first answer: announced length, length of its encoding, and number of data bytes
in the answer. -/
structure Header (m : Memory) (first : Bytes) (preimageLen len partialLen : Nat) : Prop where
  announced : varintRead m 5 (first.length - 5) = some (preimageLen, len)
  partial_eq : partialLen = (m (5 + len)).toNat
  inside : 6 + len + partialLen ≤ first.length

variable {hash : Digest}

theorem requestPreimage_ok
    (h : requestPreimage hash c = .ok u c') : c.SameInput c' ∧ c'.apdu = requestMemory hash c := by
  refine ⟨?_, by simp only [requestMemory, finalState, h]⟩
  simp only [requestPreimage, bind_ok_iff] at h
  obtain ⟨_, c1, hcmd, _, c2, hzero, _, c3, hhash, hfinal⟩ := h
  exact (addToResponse_sameInput hcmd).trans <| (addToResponse_sameInput hzero).trans <|
    (addToResponse_sameInput hhash).trans (finalizeResponse_sameInput hfinal)

theorem readPreimageHeader_ok {c0 : Comm} {first : Bytes}
    (hmsg : Interrupted c0 c first) (h : readPreimageHeader c = .ok (preimageLen, partialLen) c') :
    ∃ len, Header c.apdu first preimageLen len partialLen ∧ c'.readBuffer.cur = 6 + len
      ∧ ∃ b, c' = { c with readBuffer := b } := by
  simp only [readPreimageHeader, bind_ok_iff, get_ok_iff, require_ok_iff, pure_ok_iff, Prod.mk.injEq] at h
  obtain ⟨value, c1, hvalue, n, c2, hn, _, _, ⟨rfl, rfl⟩, _, _, ⟨hcan, rfl⟩, ⟨rfl, rfl⟩, rfl⟩ := h
  obtain ⟨b1, hb1, rfl⟩ := readOr_ok hvalue
  obtain ⟨b2, hb2, rfl⟩ := readOr_ok hn
  simp only [Buffer.readVarint, hmsg.readBuffer, create, cur, Nat.add_zero, Nat.sub_zero] at hb1
  cases hread : varintRead c.apdu 5 (first.length - 5) with
  | none => simp [hread] at hb1
  | some r =>
    obtain ⟨value', len⟩ := r
    simp only [hread, Option.map_eq_some_iff, Prod.mk.injEq] at hb1
    obtain ⟨b, hseek, rfl, rfl⟩ := hb1
    obtain ⟨hptr1, hsize1, hoff1⟩ := seekCur_eq_some hseek
    obtain ⟨hnval, hptr2, hsize2, hoff2⟩ := take_eq_some hb2
    simp only [Nat.zero_add] at hptr1 hsize1 hoff1 hnval hptr2 hsize2 hoff2
    rw [canRead_iff] at hcan
    simp only at hcan
    have hbound := b2.offset_le
    refine ⟨len, ⟨hread, ?_, ?_⟩, ?_, b2, rfl⟩
    · rw [hnval, cur, hptr1, hoff1]
    · omega
    · simp only [cur]
      omega

def deliveredPreimage (m : Memory) : List Bytes → Bytes
  | [] => []
  | first :: rest =>
    let m' := m.write 0 first
    match varintRead m' 5 (first.length - 5) with
    | none => []
    | some (preimageLen, len) =>
      let partialLen := (m' (5 + len)).toNat
      m'.read (6 + len) partialLen
        ++ ((chunks rest (preimageLen % 2 ^ 32 - partialLen) m').map fun k => k.1.read 7 k.2).flatten

/-- What `call_get_preimage` and `call_stream_preimage` share: the caller's value comes from the first
answer's data by `start` and from each further answer by `use`. -/
def transferPreimage (hash : Digest) (start : Nat → Memory → Nat → Nat → τ)
    (use : Memory → Nat → Nat → τ → τ) : Cmd (Nat × τ) := do
  requestPreimage hash
  processInterruption
  let (preimageLen64, partialDataLen) ← readPreimageHeader
  let preimageLen := preimageLen64 % 2 ^ 32
  require (-3) (1 ≤ preimageLen)
  require (-4) (partialDataLen ≤ preimageLen)
  let c ← get
  let (stream, t) ← receiveChunks (-5) use (c.incoming.length + 1) (preimageLen - partialDataLen)
    (c.apdu.read c.readBuffer.cur partialDataLen)
    (start preimageLen c.apdu c.readBuffer.cur partialDataLen)
  checkDigest sha256 (-9) hash stream
  return (preimageLen, t)

theorem callGetPreimage_eq_transfer (hash : Digest) (outLen : Nat) : callGetPreimage sha256 hash outLen =
      transferPreimage sha256 hash (fun _ m dataPtr nBytes => writeOut outLen [] (m.read dataPtr nBytes))
        (fun m dataPtr nBytes out => writeOut outLen out (m.read dataPtr nBytes)) >>= fun r => do
          returnInt r.1
          return r := by
  simp only [callGetPreimage, transferPreimage, bind_assoc, pure_bind]

theorem callStreamPreimage_eq_transfer (hash : Digest) (lenCallback : Nat → τ → τ)
    (callback : Memory → Buffer → τ → τ) (t : τ) :
    callStreamPreimage sha256 hash lenCallback callback t = transferPreimage sha256 hash
        (fun preimageLen m dataPtr nBytes =>
          callback m (create (dataPtr + 1) ((nBytes + (2 ^ 32 - 1)) % 2 ^ 32))
            (lenCallback (preimageLen - 1) t))
        (fun m dataPtr nBytes t => callback m (create dataPtr nBytes) t) >>= fun r => do
          let n ← returnIntPred r.1
          return (n, r.2) := by
  simp only [callStreamPreimage, transferPreimage, bind_assoc, pure_bind]

structure Transferred (hash : Digest) (start : Nat → Memory → Nat → Nat → τ)
    (use : Memory → Nat → Nat → τ → τ) (c : Comm) (t' : τ) (c' : Comm) (first : Bytes)
    (preimageLen len partialLen : Nat) (cs : List (Memory × Nat)) : Prop where
  incoming : c.incoming = first :: c.incoming.tail
  header : Header ((requestMemory hash c).write 0 first) first preimageLen len partialLen
  chunks_eq : cs = chunks c.incoming.tail (preimageLen % 2 ^ 32 - partialLen)
    ((requestMemory hash c).write 0 first)
  nonzero : 1 ≤ preimageLen % 2 ^ 32
  partial_le : partialLen ≤ preimageLen % 2 ^ 32
  total : (cs.map Prod.snd).sum = preimageLen % 2 ^ 32 - partialLen
  value_eq : t' = cs.foldl (fun t k => use k.1 7 k.2 t)
    (start (preimageLen % 2 ^ 32) ((requestMemory hash c).write 0 first) (6 + len) partialLen)
  first_inside : first.length ≤ apduBufferSize
  inside : List.Forall₂ (fun k msg => 7 + k.2 ≤ msg.length) cs (c.incoming.tail.take cs.length)
  hashed : c'.hashed = c.hashed ++ [deliveredPreimage (requestMemory hash c) c.incoming]
  digest : sha256 (deliveredPreimage (requestMemory hash c) c.incoming) = hash

theorem transferPreimage_ok {start : Nat → Memory → Nat → Nat → τ}
    (h : transferPreimage sha256 hash start use c = .ok (n, t') c') :
    ∃ first preimageLen len partialLen cs, n = preimageLen % 2 ^ 32
      ∧ Transferred sha256 hash start use c t' c' first preimageLen len partialLen cs := by
  simp only [transferPreimage, checkDigest, bind_ok_iff, get_ok_iff, require_ok_iff,
    modify_ok_iff, pure_ok_iff, Prod.mk.injEq] at h
  obtain ⟨_, c1, hrequest, _, c2, hinterrupt, ⟨preimageLen, partialLen⟩, c3, hheader, _, _,
    ⟨hnonzero, rfl⟩, _, _, ⟨hpart, rfl⟩, _, _, ⟨rfl, rfl⟩, ⟨stream, t''⟩, c4, hloop, _, _,
    ⟨_, _, rfl, hdigest, rfl⟩, ⟨rfl, rfl⟩, rfl⟩ := h
  obtain ⟨hsame, hmem⟩ := requestPreimage_ok hrequest
  obtain ⟨first, hmsg⟩ := processInterruption_ok hinterrupt
  obtain ⟨len, hhead, hcur, b, rfl⟩ := readPreimageHeader_ok hmsg hheader
  have hreceived := receiveChunks_ok (c := { c2 with readBuffer := b }) hmsg.outputLen hloop
  have hincoming : c.incoming = first :: c2.incoming := hsame.incoming.symm.trans hmsg.incoming
  have hapdu : c2.apdu = (requestMemory hash c).write 0 first := by rw [hmsg.apdu, hmem]
  have hlc := UInt8.toNat_lt (c2.apdu 4)
  simp only at hcur hreceived
  rw [hcur, hapdu] at hreceived
  rw [hapdu] at hhead
  have hdelivered : deliveredPreimage (requestMemory hash c) c.incoming = stream := by
    rw [hreceived.stream_eq, hincoming]
    simp only [deliveredPreimage, hhead.announced, ← hhead.partial_eq]
  have htail : c.incoming.tail = c2.incoming := by rw [hincoming, tail_cons]
  refine ⟨first, preimageLen, len, partialLen,
    chunks c2.incoming (preimageLen % 2 ^ 32 - partialLen) ((requestMemory hash c).write 0 first), rfl,
    { incoming := by rw [htail, hincoming]
      header := hhead
      chunks_eq := by rw [htail]
      nonzero := of_decide_eq_true hnonzero
      partial_le := of_decide_eq_true hpart
      total := hreceived.total
      value_eq := hreceived.value_eq
      first_inside := ?_
      inside := htail ▸ hreceived.inside
      hashed := ?_
      digest := by rw [hdelivered]; exact of_decide_eq_true hdigest }⟩
  · have hlen := hmsg.lc
    have hsize : apduBufferSize = 260 := rfl
    omega
  · rw [hdelivered, hreceived.hashed, hmsg.hashed, hsame.hashed]

def startsWithData (m : Memory) : List Bytes → Bool
  | [] => false
  | first :: _ =>
    match varintRead (m.write 0 first) 5 (first.length - 5) with
    | none => false
    | some (_, len) => m.write 0 first (5 + len) ≠ 0

structure Streamed (hash : Digest) (lenCallback : Nat → τ → τ) (callback : Memory → Buffer → τ → τ)
    (t : τ) (c : Comm) (t' : τ) (first : Bytes) (preimageLen len partialLen : Nat)
    (cs : List (Memory × Nat)) : Prop where
  incoming : c.incoming = first :: c.incoming.tail
  header : Header ((requestMemory hash c).write 0 first) first preimageLen len partialLen
  chunks_eq : cs = chunks c.incoming.tail (preimageLen % 2 ^ 32 - partialLen)
    ((requestMemory hash c).write 0 first)
  partial_le : partialLen ≤ preimageLen % 2 ^ 32
  total : (cs.map Prod.snd).sum = preimageLen % 2 ^ 32 - partialLen
  length_lt : preimageLen % 2 ^ 32 < 2 ^ 31
  value_eq : t' = cs.foldl (fun t k => callback k.1 (Buffer.create 7 k.2) t)
    (callback ((requestMemory hash c).write 0 first)
      (Buffer.create (6 + len + 1) ((partialLen + (2 ^ 32 - 1)) % 2 ^ 32))
      (lenCallback (preimageLen % 2 ^ 32 - 1) t))

theorem callStreamPreimage_ok (h : callStreamPreimage sha256 hash lenCallback callback t c = .ok (n, t') c') :
    ∃ first preimageLen len partialLen cs,
      Streamed hash lenCallback callback t c t' first preimageLen len partialLen cs := by
  simp only [callStreamPreimage_eq_transfer, bind_ok_iff, pure_ok_iff, Prod.mk.injEq] at h
  obtain ⟨⟨_, _⟩, _, htransfer, _, _, hret, ⟨rfl, rfl⟩, rfl⟩ := h
  obtain ⟨first, preimageLen, len, partialLen, cs, rfl, h⟩ := transferPreimage_ok sha256 htransfer
  exact ⟨first, preimageLen, len, partialLen, cs, { h with length_lt := (returnIntPred_ok hret).1 }⟩

/-- With data in the first answer, the callback sees the delivered preimage without its leading byte,
in pieces. -/
theorem Streamed.pieces {f : τ → Bytes → τ} {first : Bytes}
    (h : Streamed hash lenCallback (fun m data t => f t (m.read data.ptr data.size)) t c t' first
      preimageLen len partialLen cs)
    (hstarts : startsWithData (requestMemory hash c) c.incoming) :
    ∃ pieces : List Bytes, pieces.flatten = (deliveredPreimage (requestMemory hash c) c.incoming).drop 1
        ∧ pieces.flatten.length < 2 ^ 31
        ∧ t' = pieces.foldl f (lenCallback (preimageLen % 2 ^ 32 - 1) t) := by
  rw [h.incoming] at hstarts ⊢
  simp only [startsWithData, deliveredPreimage, h.header.announced, decide_eq_true_eq] at hstarts ⊢
  rw [← h.header.partial_eq, ← h.chunks_eq]
  have hpos : 1 ≤ partialLen := by
    rw [h.header.partial_eq]
    exact Nat.one_le_iff_ne_zero.mpr fun hzero => hstarts (UInt8.toNat_inj.mp hzero)
  obtain ⟨k, hk⟩ := Nat.exists_eq_add_of_le' hpos
  have hsize : (partialLen + (2 ^ 32 - 1)) % 2 ^ 32 = k := by
    have hle := h.partial_le
    have hlt := h.length_lt
    omega
  refine ⟨((requestMemory hash c).write 0 first).read (6 + len + 1) k
    :: cs.map fun k => k.1.read 7 k.2, ?_, ?_, ?_⟩
  · rw [hk, Memory.read_succ]
    simp
  · have hle := h.partial_le
    have hlt := h.length_lt
    rw [flatten_cons, length_append, Memory.length_read, length_flatten_read, h.total]
    omega
  · rw [h.value_eq, hsize, foldl_cons, foldl_map]
    rfl

structure MerklePreimage (hash : Digest) (outLen : Nat) (c : Comm) (out : Bytes) (c' : Comm)
    (first : Bytes) (preimageLen len partialLen : Nat) (cs : List (Memory × Nat)) : Prop where
  incoming : c.incoming = first :: c.incoming.tail
  header : Header ((requestMemory hash c).write 0 first) first preimageLen len partialLen
  chunks_eq : cs = chunks c.incoming.tail (preimageLen - partialLen) ((requestMemory hash c).write 0 first)
  partial_pos : 1 ≤ partialLen
  fits : out.length ≤ outLen
  hashed : c'.hashed = c.hashed ++ [((requestMemory hash c).write 0 first).read (6 + len) partialLen
    ++ (cs.map fun k => k.1.read 7 k.2).flatten]
  out_eq : out = ((requestMemory hash c).write 0 first).read (7 + len) (partialLen - 1)
    ++ (cs.map fun k => k.1.read (6 + len) k.2).flatten
  digest : sha256 (((requestMemory hash c).write 0 first).read (6 + len) partialLen
    ++ (cs.map fun k => k.1.read 7 k.2).flatten) = hash

variable {sha256}

theorem callGetMerklePreimage_ok (h : callGetMerklePreimage sha256 hash outLen c = .ok out c') :
    ∃ first preimageLen len partialLen cs,
      MerklePreimage sha256 hash outLen c out c' first preimageLen len partialLen cs := by
  simp only [callGetMerklePreimage, checkDigest, bind_ok_iff, get_ok_iff, require_ok_iff,
    modify_ok_iff, pure_ok_iff] at h
  obtain ⟨_, c1, hrequest, _, c2, hinterrupt, ⟨preimageLen, partialLen⟩, c3, hheader, _, _,
    ⟨hnonzero, rfl⟩, _, _, ⟨hroom, rfl⟩, _, _, ⟨hpart, rfl⟩, _, _, ⟨rfl, rfl⟩, ⟨stream, out'⟩, c4,
    hloop, _, _, ⟨_, _, rfl, hdigest, rfl⟩, _, c5, hint, rfl, rfl⟩ := h
  obtain ⟨hsame, hmem⟩ := requestPreimage_ok hrequest
  obtain ⟨first, hmsg⟩ := processInterruption_ok hinterrupt
  obtain ⟨len, hhead, hcur, b, rfl⟩ := readPreimageHeader_ok hmsg hheader
  have hreceived := receiveChunks_ok (c := { c2 with readBuffer := b }) hmsg.outputLen hloop
  obtain rfl := returnInt_ok hint
  have hincoming : c.incoming = first :: c2.incoming := hsame.incoming.symm.trans hmsg.incoming
  have hapdu : c2.apdu = (requestMemory hash c).write 0 first := by rw [hmsg.apdu, hmem]
  simp only at hcur hreceived
  rw [hcur, hapdu] at hreceived
  simp only [Bool.and_eq_true, decide_eq_true_eq] at hnonzero hroom hpart hdigest
  -- everything fits: the announced length was compared with the size of the output
  have hfirst : writeOut outLen []
      (((requestMemory hash c).write 0 first).read (6 + len + 1) (partialLen - 1))
        = ((requestMemory hash c).write 0 first).read (7 + len) (partialLen - 1) := by
    rw [writeOut, if_pos (by simp only [length_nil, Memory.length_read]; omega),
      nil_append, Nat.add_right_comm]
  have hvalue := hreceived.value_eq
  rw [hfirst, foldl_writeOut (by rw [hreceived.total, Memory.length_read]; omega)] at hvalue
  have hlength : out'.length ≤ outLen := by
    rw [hvalue, length_append, Memory.length_read, length_flatten_read, hreceived.total]
    omega
  exact ⟨first, preimageLen, len, partialLen,
    chunks c2.incoming (preimageLen - partialLen) ((requestMemory hash c).write 0 first),
    { incoming := by rw [hincoming, tail_cons]
      header := hapdu ▸ hhead
      chunks_eq := by rw [hincoming, tail_cons]
      partial_pos := by omega
      fits := hlength
      hashed := by
        rw [← hreceived.stream_eq, ← hsame.hashed, ← hmsg.hashed, ← hreceived.hashed]
      out_eq := hvalue
      digest := by rw [← hreceived.stream_eq, hdigest] }⟩

/-- The first data byte is zero, and every further answer has its own data also at the position of the
first answer's data. -/
def CopiesAgree (m : Memory) (incoming : List Bytes) : Prop :=
  match incoming with
  | [] => True
  | first :: rest =>
    let m' := m.write 0 first
    match varintRead m' 5 (first.length - 5) with
    | none => True
    | some (preimageLen, len) =>
      m' (6 + len) = 0 ∧ ∀ k ∈ chunks rest (preimageLen - (m' (5 + len)).toNat) m',
            k.1.read (6 + len) k.2 = k.1.read 7 k.2

instance (m : Memory) : (incoming : List Bytes) → Decidable (CopiesAgree m incoming)
  | [] => isTrue trivial
  | first :: rest =>
    match h : varintRead (m.write 0 first) 5 (first.length - 5) with
    | none => isTrue (by simp only [CopiesAgree, h])
    | some (preimageLen, len) =>
      decidable_of_iff (m.write 0 first (6 + len) = 0
          ∧ ∀ k ∈ chunks rest (preimageLen - (m.write 0 first (5 + len)).toNat) (m.write 0 first),
              k.1.read (6 + len) k.2 = k.1.read 7 k.2)
        (by simp only [CopiesAgree, h])

theorem flatten_read_eq_iff {a b : Nat} :
    (cs.map fun k => k.1.read a k.2).flatten = (cs.map fun k => k.1.read b k.2).flatten
      ↔ ∀ k ∈ cs, k.1.read a k.2 = k.1.read b k.2 := by
  induction cs with
  | nil => simp
  | cons k cs ih =>
    simp only [map_cons, flatten_cons, forall_mem_cons]
    constructor
    · intro h
      obtain ⟨hhead, htail⟩ := append_inj h (by simp)
      exact ⟨hhead, ih.mp htail⟩
    · rintro ⟨hhead, htail⟩
      rw [hhead, ih.mpr htail]

theorem MerklePreimage.copied_iff {first : Bytes}
    (h : MerklePreimage sha256 hash outLen c out c' first preimageLen len partialLen cs) :
    0x00 :: out = ((requestMemory hash c).write 0 first).read (6 + len) partialLen
        ++ (cs.map fun k => k.1.read 7 k.2).flatten
      ↔ CopiesAgree (requestMemory hash c) c.incoming := by
  obtain ⟨k, hk⟩ := Nat.exists_eq_add_of_le' h.partial_pos
  have hcs := h.chunks_eq
  rw [h.header.partial_eq] at hcs
  rw [h.out_eq, h.incoming]
  simp only [CopiesAgree, h.header.announced]
  rw [← hcs, ← flatten_read_eq_iff, hk, Memory.read_succ, Nat.add_sub_cancel,
    show 6 + len + 1 = 7 + len by omega]
  simp only [cons_append, cons.injEq, append_cancel_left_eq, eq_comm (a := (0 : UInt8))]

theorem fetched_authentic_iff (hrun : callGetMerklePreimage sha256 hash outLen c = .ok out c') :
    (CopiesAgree (requestMemory hash c) c.incoming → sha256 (0x00 :: out) = hash)
      ∧ (¬ HashPath.Collides sha256 ((0x00 :: out) :: c'.hashed.drop c.hashed.length) →
        sha256 (0x00 :: out) = hash → CopiesAgree (requestMemory hash c) c.incoming) := by
  obtain ⟨first, preimageLen, len, partialLen, cs, h⟩ := callGetMerklePreimage_ok hrun
  refine ⟨fun hagree => ?_, fun hfree hauth => ?_⟩
  · rw [h.copied_iff.mpr hagree, h.digest]
  · rw [← h.copied_iff]
    by_contra hne
    rw [h.hashed, drop_left] at hfree
    exact hfree ⟨_, by simp, _, by simp, hne, hauth.trans h.digest.symm⟩

/-- **Authenticity of fetched elements.** A successful fetch fits the output buffer. If the copies
agree, the requested hash is that of a zero byte and the output; and only then, unless there is a
collision. -/
theorem callGetMerklePreimage_authentic {hash : Digest} {outLen : Nat} {c c' : Comm}
    {out : Bytes} (hrun : callGetMerklePreimage sha256 hash outLen c = .ok out c') :
    (CopiesAgree (requestMemory hash c) c.incoming → out.length ≤ outLen ∧ sha256 (0x00 :: out) = hash)
      ∧ (¬ HashPath.Collides sha256 ((0x00 :: out) :: c'.hashed.drop c.hashed.length) →
        out.length ≤ outLen ∧ sha256 (0x00 :: out) = hash →
        CopiesAgree (requestMemory hash c) c.incoming) := by
  obtain ⟨hcopied, hagrees⟩ := fetched_authentic_iff hrun
  obtain ⟨first, preimageLen, len, partialLen, cs, h⟩ := callGetMerklePreimage_ok hrun
  exact ⟨fun hagree => ⟨h.fits, hcopied hagree⟩, fun hfree hauth => hagrees hfree hauth.2⟩

end

namespace ShortElement

-- the element `AB`, in two answers; the length of the preimage takes one byte
def hash : Digest := .ofNat 0x385e2ba0cc8fc6bd16e9a08b789b445ed47bc02ab8d17adf849aaeb52f66992d

def sha256 : Bytes → Digest := sha256Table [([0x00, 0x41, 0x42], hash)]

def client : Comm := .idle [continueApdu [3, 2, 0x00, 0x41], continueApdu [1, 1, 0x42]]

theorem client_ok : returned? (callGetMerklePreimage sha256 hash 10) client = some [0x41, 0x42] := by
  decide +kernel

end ShortElement

/-- With a one-byte length the further answers are copied from where they stand. -/
theorem callGetMerklePreimage_authentic_shortElement : [0x41, 0x42].length ≤ 10
      ∧ ShortElement.sha256 [0x00, 0x41, 0x42] = ShortElement.hash :=
  (callGetMerklePreimage_authentic (ok_of_returned? ShortElement.client_ok)).1 (by decide +kernel)

namespace LongElement

-- an element of 253 bytes, so that the length of the preimage takes three bytes
def element : Bytes := replicate 250 0x41 ++ [0x42, 0x43, 0x44]

-- what the device stores: the second answer is read two bytes too far, over the first one's data
def stored : Bytes := replicate 250 0x41 ++ [0x44, 0x41, 0x41]

def hash : Digest := .ofNat 0x145a42993e3cf8ab59e4d12602d9ff99dd52b21c186bf5f26debbd311cec5477

def storedHash : Digest := .ofNat 0xcc67510bb84063f3039bb2c402fed65433f61bd9d875e1d88be6064bf408452a

def sha256 : Bytes → Digest := sha256Table [(0x00 :: element, hash), (0x00 :: stored, storedHash)]

/-- The answers of an honest client, with as many bytes in the first as an APDU can carry. -/
def client : Comm := .idle [continueApdu ([0xFD, 0xFE, 0x00, 251] ++ (0x00 :: element).take 251),
    continueApdu ([3, 1] ++ (0x00 :: element).drop 251)]

theorem client_ok : returned? (callGetMerklePreimage sha256 hash 300) client = some stored := by
  decide +kernel

end LongElement

/-- The device accepts an element of 253 bytes from an honest client, and stores bytes with another
hash. -/
theorem not_callGetMerklePreimage_authentic :
    ¬ ∀ (sha256 : Bytes → Digest) (hash : Digest) (outLen : Nat) (c c' : Comm) (out : Bytes),
      callGetMerklePreimage sha256 hash outLen c = .ok out c' →
      out.length ≤ outLen ∧ sha256 (0x00 :: out) = hash := by
  intro h
  have hauth := (h _ _ _ _ _ _ (ok_of_returned? LongElement.client_ok)).2
  exact absurd hauth (by decide +kernel)

end LedgerBabylon
