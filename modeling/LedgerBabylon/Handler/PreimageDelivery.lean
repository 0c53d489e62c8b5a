import LedgerBabylon.Handler.Preimage
import Mathlib.Data.List.Forall2

/-!
# What a preimage transfer hands to its caller

`call_get_preimage` copies the preimage into a buffer and ignores whether the copies fit.
`call_stream_preimage` gives it to callbacks, one buffer per answer, and drops the first byte unseen.
Both hash what arrived, so the digest is right; what the caller gets is the hashed string only under a
condition on the first answer.
-/

namespace LedgerBabylon

open Exec List

section

variable {τ : Type} {sha256 : Bytes → Digest}

def announcedPreimageLen : List Bytes → Nat
  | [] => 0
  | first :: _ => ((varintRead (Memory.ofList first) 5 (first.length - 5)).map Prod.fst).getD 0 % 2 ^ 32

theorem varintRead_write_ofList (m : Memory) (first : Bytes) :
    varintRead (m.write 0 first) 5 (first.length - 5) =
      varintRead (Memory.ofList first) 5 (first.length - 5) := by
  apply varintRead_congr
  intro i hi
  rw [Memory.write_apply_inside _ (Nat.zero_le _) (by omega)]
  rfl

namespace Transferred

variable {hash : Digest} {start : Nat → Memory → Nat → Nat → τ} {use : Memory → Nat → Nat → τ → τ}
  {c c' : Comm} {t' : τ} {first : Bytes} {preimageLen len partialLen : Nat}
  {cs : List (Memory × Nat)}

theorem announcedPreimageLen_eq
    (h : Transferred sha256 hash start use c t' c' first preimageLen len partialLen cs) :
    announcedPreimageLen c.incoming = preimageLen % 2 ^ 32 := by
  have hread := h.header.announced
  rw [varintRead_write_ofList] at hread
  rw [h.incoming, announcedPreimageLen, hread]
  rfl

theorem deliveredPreimage_eq
    (h : Transferred sha256 hash start use c t' c' first preimageLen len partialLen cs) :
    deliveredPreimage (requestMemory hash c) c.incoming =
      ((requestMemory hash c).write 0 first).read (6 + len) partialLen
        ++ (cs.map fun k => k.1.read 7 k.2).flatten := by
  rw [h.incoming]
  simp only [deliveredPreimage, h.header.announced]
  rw [← h.header.partial_eq, ← h.chunks_eq]

theorem length_deliveredPreimage
    (h : Transferred sha256 hash start use c t' c' first preimageLen len partialLen cs) :
    (deliveredPreimage (requestMemory hash c) c.incoming).length = preimageLen % 2 ^ 32 := by
  have hle := h.partial_le
  rw [h.deliveredPreimage_eq, length_append, Memory.length_read, length_flatten_read, h.total]
  omega

end Transferred

structure PreimageFetched (sha256 : Bytes → Digest) (hash : Digest) (outLen : Nat) (c : Comm)
    (len : Nat) (out : Bytes) (c' : Comm) (preimage : Bytes) : Prop where
  announced : announcedPreimageLen c.incoming = len
  length : preimage.length = len
  hashed : c'.hashed = c.hashed ++ [preimage]
  digest : sha256 preimage = hash
  out_eq : len ≤ outLen → out = preimage

theorem callGetPreimage_ok {hash : Digest} {outLen len : Nat} {out : Bytes} {c c' : Comm}
    (h : callGetPreimage sha256 hash outLen c = .ok (len, out) c') :
    ∃ preimage, PreimageFetched sha256 hash outLen c len out c' preimage := by
  simp only [callGetPreimage_eq_transfer, bind_ok_iff, pure_ok_iff] at h
  obtain ⟨_, _, htransfer, _, _, hint, rfl, rfl⟩ := h
  obtain rfl := returnInt_ok hint
  obtain ⟨first, preimageLen, varintLen, partialLen, cs, rfl, h⟩ := transferPreimage_ok sha256 htransfer
  refine ⟨deliveredPreimage (requestMemory hash c) c.incoming, h.announcedPreimageLen_eq,
    h.length_deliveredPreimage, h.hashed, h.digest, ?_⟩
  intro hfits
  have hle := h.partial_le
  rw [h.value_eq, h.deliveredPreimage_eq, writeOut,
    if_pos (by simp only [length_nil, Memory.length_read]; omega), nil_append]
  apply foldl_writeOut
  rw [h.total, Memory.length_read]
  omega

/-- The contents of a buffer after these bytes have been written from its start on. -/
def overwritten (before written : Bytes) : Bytes := written ++ before.drop written.length

/-- **Fetching a preimage.** The buffer holds a preimage of the returned length exactly if it has room
for the announced length. -/
theorem callGetPreimage_delivers_iff {hash : Digest} {len : Nat} {c c' : Comm} {before out : Bytes}
    (hrun : callGetPreimage sha256 hash before.length c = .ok (len, out) c') :
    (len ≤ before.length ∧ sha256 ((overwritten before out).take len) = hash)
      ↔ announcedPreimageLen c.incoming ≤ before.length := by
  obtain ⟨preimage, h⟩ := callGetPreimage_ok hrun
  rw [h.announced]
  refine ⟨fun hdelivered => hdelivered.1, fun hroom => ⟨hroom, ?_⟩⟩
  rw [overwritten, h.out_eq hroom, ← h.length, take_left]
  exact h.digest

/-- An element of two bytes, fetched with its leading byte into a buffer of three. -/
theorem callGetPreimage_delivers_iff_shortElement : 3 ≤ [0xFF, 0xFF, 0xFF].length
      ∧ ShortElement.sha256 ((overwritten [0xFF, 0xFF, 0xFF] [0x00, 0x41, 0x42]).take 3)
        = ShortElement.hash :=
  (@callGetPreimage_delivers_iff _ _ _ _ _ [0xFF, 0xFF, 0xFF] _
    (ok_of_returned? (show returned? (callGetPreimage ShortElement.sha256 ShortElement.hash 3)
      ShortElement.client = some (3, [0x00, 0x41, 0x42]) by decide +kernel))).mpr (by decide +kernel)

/-- With room for two bytes the same transfer succeeds, and reports a length of three. -/
theorem not_callGetPreimage_delivers :
    ¬ ∀ (sha256 : Bytes → Digest) (hash : Digest) (len : Nat) (c c' : Comm) (before out : Bytes),
      callGetPreimage sha256 hash before.length c = .ok (len, out) c' →
      len ≤ before.length ∧ sha256 ((overwritten before out).take len) = hash := by
  intro h
  have hrun : returned? (callGetPreimage ShortElement.sha256 ShortElement.hash 2)
      ShortElement.client = some (3, [0x00, 0x41]) := by decide +kernel
  have hlen := (h _ _ _ _ _ [0xFF, 0xFF] _ (ok_of_returned? hrun)).1
  exact absurd hlen (by decide)

/-- What the callbacks of a stream are given: lengths, and buffers with the memory they point into. -/
structure Calls where
  lengths : List Nat
  buffers : List (Memory × Buffer)

namespace Calls

def addLength (n : Nat) (calls : Calls) : Calls := { calls with lengths := calls.lengths ++ [n] }

def addBuffer (m : Memory) (b : Buffer) (calls : Calls) : Calls :=
  { calls with buffers := calls.buffers ++ [(m, b)] }

def bytes (calls : Calls) : Bytes := (calls.buffers.map fun k => k.1.read k.2.ptr k.2.size).flatten

theorem foldl_addBuffer (cs : List (Memory × Nat)) (calls : Calls) :
    cs.foldl (fun calls k => calls.addBuffer k.1 (Buffer.create 7 k.2)) calls =
      { calls with
        buffers := calls.buffers ++ cs.map fun k => (k.1, Buffer.create 7 k.2) } := by
  induction cs generalizing calls with
  | nil => simp
  | cons k cs ih =>
    rw [foldl_cons, ih]
    simp [addBuffer]

end Calls

def recordStream (sha256 : Bytes → Digest) (hash : Digest) : Cmd (Nat × Calls) :=
  callStreamPreimage sha256 hash Calls.addLength Calls.addBuffer ⟨[], []⟩

/-- The stream is the requested preimage: every buffer lies inside its answer, together they have the
returned length, which was also announced, and with a zero byte in front the requested hash. -/
structure StreamsPreimage (sha256 : Bytes → Digest) (hash : Digest) (c : Comm) (n : Nat)
    (calls : Calls) : Prop where
  inside : List.Forall₂ (fun k msg => 5 ≤ k.2.ptr ∧ k.2.ptr + k.2.size ≤ msg.length) calls.buffers
    (c.incoming.take calls.buffers.length)
  length : calls.bytes.length = n
  announced : calls.lengths = [n]
  digest : sha256 (0x00 :: calls.bytes) = hash

def startsWithZero : List Bytes → Bool
  | [] => false
  | first :: _ =>
    match varintRead (Memory.ofList first) 5 (first.length - 5) with
    | none => false
    | some (_, len) => Memory.ofList first (5 + len) ≠ 0 && Memory.ofList first (6 + len) = 0

structure RecordedStream (hash : Digest) (c : Comm) (n : Nat) (calls : Calls) (first : Bytes)
    (preimageLen len partialLen : Nat) (cs : List (Memory × Nat)) : Prop where
  incoming : c.incoming = first :: c.incoming.tail
  header : Header ((requestMemory hash c).write 0 first) first preimageLen len partialLen
  starts : startsWithZero c.incoming ↔
    1 ≤ partialLen ∧ (requestMemory hash c).write 0 first (6 + len) = 0
  lengths : calls.lengths = [n]
  buffers : calls.buffers = ((requestMemory hash c).write 0 first,
      Buffer.create (6 + len + 1) ((partialLen + (2 ^ 32 - 1)) % 2 ^ 32))
        :: cs.map fun k => (k.1, Buffer.create 7 k.2)
  short : first.length ≤ apduBufferSize
  partial_lt : partialLen < 2 ^ 31
  inside : List.Forall₂ (fun k msg => 7 + k.2 ≤ msg.length) cs (c.incoming.tail.take cs.length)
  delivered : deliveredPreimage (requestMemory hash c) c.incoming =
    ((requestMemory hash c).write 0 first).read (6 + len) partialLen
      ++ (cs.map fun k => k.1.read 7 k.2).flatten
  length : (deliveredPreimage (requestMemory hash c) c.incoming).length = n + 1

theorem Transferred.startsWithZero_iff {hash : Digest} {start : Nat → Memory → Nat → Nat → τ}
    {use : Memory → Nat → Nat → τ → τ} {c c' : Comm} {t' : τ} {first : Bytes}
    {preimageLen len partialLen : Nat} {cs : List (Memory × Nat)}
    (h : Transferred sha256 hash start use c t' c' first preimageLen len partialLen cs) :
    startsWithZero c.incoming ↔
      1 ≤ partialLen ∧ (requestMemory hash c).write 0 first (6 + len) = 0 := by
  have hread := h.header.announced
  have hinside := h.header.inside
  have hpart := h.header.partial_eq
  rw [varintRead_write_ofList] at hread
  have hofList : ∀ i < first.length, (requestMemory hash c).write 0 first i = Memory.ofList first i := by
    intro i hi
    rw [Memory.write_apply_inside _ (Nat.zero_le _) (by omega)]
    rfl
  rw [hofList _ (by omega)] at hpart
  rw [h.incoming]
  simp only [startsWithZero, hread, Bool.and_eq_true, decide_eq_true_eq]
  have hne : Memory.ofList first (5 + len) ≠ 0 ↔ 1 ≤ partialLen := by
    rw [hpart, Nat.one_le_iff_ne_zero, ne_eq, ne_eq, ← UInt8.toNat_inj]
    rfl
  rw [hne]
  refine and_congr_right fun hpos => ?_
  rw [hofList _ (by omega)]

theorem recordStream_ok {hash : Digest} {n : Nat} {calls : Calls} {c c' : Comm}
    (hrun : recordStream sha256 hash c = .ok (n, calls) c') :
    sha256 (deliveredPreimage (requestMemory hash c) c.incoming) = hash
      ∧ c'.hashed = c.hashed ++ [deliveredPreimage (requestMemory hash c) c.incoming]
      ∧ ∃ first preimageLen len partialLen cs,
        RecordedStream hash c n calls first preimageLen len partialLen cs := by
  simp only [recordStream, callStreamPreimage_eq_transfer, bind_ok_iff, pure_ok_iff, Prod.mk.injEq] at hrun
  obtain ⟨⟨_, _⟩, _, htransfer, _, _, hret, ⟨rfl, rfl⟩, rfl⟩ := hrun
  obtain ⟨first, preimageLen, len, partialLen, cs, rfl, h⟩ := transferPreimage_ok sha256 htransfer
  obtain ⟨hlt, rfl, rfl⟩ := returnIntPred_ok hret
  have hvalue := h.value_eq
  rw [Calls.foldl_addBuffer] at hvalue
  refine ⟨h.digest, h.hashed, first, preimageLen, len, partialLen, cs, ?_⟩
  subst hvalue
  exact
    { incoming := h.incoming
      header := h.header
      starts := h.startsWithZero_iff
      lengths := rfl
      buffers := rfl
      short := h.first_inside
      partial_lt := Nat.lt_of_le_of_lt h.partial_le hlt
      inside := h.inside
      delivered := h.deliveredPreimage_eq
      length := by
        have hpos := h.nonzero
        rw [h.length_deliveredPreimage]
        omega }

namespace RecordedStream

variable {hash : Digest} {c : Comm} {n : Nat} {calls : Calls} {first : Bytes}
  {preimageLen len partialLen : Nat} {cs : List (Memory × Nat)}

theorem firstSize (h : RecordedStream hash c n calls first preimageLen len partialLen cs) (hpos : 1 ≤ partialLen) :
    (partialLen + (2 ^ 32 - 1)) % 2 ^ 32 = partialLen - 1 := by
  have hlt := h.partial_lt
  omega

theorem startsWithData_iff (h : RecordedStream hash c n calls first preimageLen len partialLen cs) :
    startsWithData (requestMemory hash c) c.incoming ↔ 1 ≤ partialLen := by
  rw [h.incoming]
  simp only [startsWithData, h.header.announced, decide_eq_true_eq]
  rw [h.header.partial_eq, Nat.one_le_iff_ne_zero, ne_eq, ne_eq, ← UInt8.toNat_inj]
  rfl

theorem delivered_eq_cons (h : RecordedStream hash c n calls first preimageLen len partialLen cs)
    (hpos : 1 ≤ partialLen) :
    deliveredPreimage (requestMemory hash c) c.incoming =
      (requestMemory hash c).write 0 first (6 + len) :: calls.bytes := by
  obtain ⟨k, rfl⟩ := Nat.exists_eq_add_of_le' hpos
  rw [h.delivered, Calls.bytes, h.buffers, h.firstSize hpos, Memory.read_succ]
  simp [Buffer.create, Function.comp_def]

theorem buffers_inside_iff (h : RecordedStream hash c n calls first preimageLen len partialLen cs) :
    Forall₂ (fun k msg => 5 ≤ k.2.ptr ∧ k.2.ptr + k.2.size ≤ msg.length) calls.buffers
      (c.incoming.take calls.buffers.length) ↔ 1 ≤ partialLen := by
  have hshort := h.short
  have hcap : apduBufferSize = 260 := rfl
  have hinside := h.header.inside
  rw [h.buffers, h.incoming, length_cons, take_succ_cons, forall₂_cons, length_map, forall₂_map_left_iff]
  simp only [Buffer.create]
  constructor
  · intro hall
    by_contra hzero
    obtain rfl : partialLen = 0 := by omega
    omega
  · intro hpos
    rw [h.firstSize hpos]
    refine ⟨by omega, h.inside.imp fun k msg hle => ⟨by omega, hle⟩⟩

theorem streams (h : RecordedStream hash c n calls first preimageLen len partialLen cs)
    (hdigest : sha256 (deliveredPreimage (requestMemory hash c) c.incoming) = hash)
    (hstarts : startsWithZero c.incoming) : StreamsPreimage sha256 hash c n calls := by
  obtain ⟨hpos, hzero⟩ := h.starts.mp hstarts
  have hcons := h.delivered_eq_cons hpos
  rw [hzero] at hcons
  have hlength := h.length
  rw [hcons, length_cons] at hlength
  exact ⟨h.buffers_inside_iff.mpr hpos, Nat.succ_inj.mp hlength, h.lengths, hcons ▸ hdigest⟩

theorem startsWithZero_of_streams (h : RecordedStream hash c n calls first preimageLen len partialLen cs)
    (hdigest : sha256 (deliveredPreimage (requestMemory hash c) c.incoming) = hash)
    (hfree : ¬ HashPath.Collides sha256
      [0x00 :: calls.bytes, deliveredPreimage (requestMemory hash c) c.incoming])
    (hstreams : StreamsPreimage sha256 hash c n calls) : startsWithZero c.incoming := by
  have hpos := h.buffers_inside_iff.mp hstreams.inside
  refine h.starts.mpr ⟨hpos, ?_⟩
  by_contra hne
  apply hfree
  refine ⟨_, mem_cons_self, _, mem_cons_of_mem _ mem_cons_self, ?_, hstreams.digest.trans hdigest.symm⟩
  rw [h.delivered_eq_cons hpos]
  intro heq
  exact hne (cons.inj heq).1.symm

end RecordedStream

/-- **Streaming and fetching.** A stream is the requested preimage if the first answer's data start with
a zero byte; and only then, unless there is a collision. A fetch gives the same bytes exactly if its
copies agree as well. -/
theorem recordStream_eq_fetched_iff {hash : Digest} {n : Nat} {calls : Calls} {c c' : Comm}
    (hrun : recordStream sha256 hash c = .ok (n, calls) c') :
    (startsWithZero c.incoming → StreamsPreimage sha256 hash c n calls)
      ∧ (¬ HashPath.Collides sha256 ((0x00 :: calls.bytes) :: c'.hashed.drop c.hashed.length) →
        StreamsPreimage sha256 hash c n calls → startsWithZero c.incoming)
      ∧ ∀ {outLen : Nat} {out : Bytes} {d d' : Comm},
        callGetMerklePreimage sha256 hash outLen d = .ok out d' →
        ¬ HashPath.Collides sha256 ((0x00 :: calls.bytes) :: (0x00 :: out)
          :: (c'.hashed.drop c.hashed.length ++ d'.hashed.drop d.hashed.length)) →
        ((StreamsPreimage sha256 hash c n calls ∧ calls.bytes = out)
          ↔ startsWithZero c.incoming ∧ CopiesAgree (requestMemory hash d) d.incoming) := by
  obtain ⟨hdigest, hhashed, first, preimageLen, len, partialLen, cs, h⟩ := recordStream_ok hrun
  rw [hhashed, drop_left]
  have hstreams : startsWithZero c.incoming → StreamsPreimage sha256 hash c n calls :=
    h.streams hdigest
  have honly := h.startsWithZero_of_streams hdigest
  refine ⟨hstreams, honly, ?_⟩
  intro outLen out d d' hfetch hfree
  obtain ⟨hcopied, hagrees⟩ := fetched_authentic_iff hfetch
  constructor
  · rintro ⟨hs, rfl⟩
    refine ⟨honly (fun hcol => hfree (hcol.mono _ (by grind))) hs, ?_⟩
    exact hagrees (fun hcol => hfree (hcol.mono _ (by grind))) hs.digest
  · rintro ⟨hzero, hagree⟩
    refine ⟨hstreams hzero, ?_⟩
    by_contra hne
    apply hfree
    refine ⟨_, mem_cons_self, _, mem_cons_of_mem _ mem_cons_self, ?_,
      (hstreams hzero).digest.trans (hcopied hagree).symm⟩
    intro heq
    exact hne (cons.inj heq).2

end

def shortElementCalls (client : Comm) : Calls :=
  ((returned? (recordStream ShortElement.sha256 ShortElement.hash) client).map Prod.snd).getD ⟨[], []⟩

theorem recordStream_shortElement (client : Comm) (n : Nat)
    (h : (returned? (recordStream ShortElement.sha256 ShortElement.hash) client).map Prod.fst = some n) :
    returned? (recordStream ShortElement.sha256 ShortElement.hash) client =
      some (n, shortElementCalls client) := by
  obtain ⟨⟨_, calls⟩, hrun, rfl⟩ := Option.map_eq_some_iff.mp h
  rw [shortElementCalls, hrun]
  rfl

/-- The two bytes of the element are streamed as they are fetched. -/
theorem recordStream_eq_fetched_iff_shortElement :
    StreamsPreimage ShortElement.sha256 ShortElement.hash ShortElement.client 2
        (shortElementCalls ShortElement.client)
      ∧ (shortElementCalls ShortElement.client).bytes = [0x41, 0x42] :=
  ((recordStream_eq_fetched_iff (ok_of_returned? (recordStream_shortElement _ 2 (by decide +kernel)))).2.2
    (ok_of_returned? ShortElement.client_ok) (by decide +kernel)).mpr (by decide +kernel)

def lateClient : Comm := .idle [continueApdu [3, 0], continueApdu [3, 1, 0x00, 0x41, 0x42]]

/-- Without data in the first answer, the first buffer given to the callback has `2^32 - 1` bytes. -/
theorem not_recordStream_streams :
    ¬ ∀ (sha256 : Bytes → Digest) (hash : Digest) (n : Nat) (calls : Calls) (c c' : Comm),
      recordStream sha256 hash c = .ok (n, calls) c' → StreamsPreimage sha256 hash c n calls := by
  intro h
  have hrun := ok_of_returned? (recordStream_shortElement lateClient 2 (by decide +kernel))
  obtain ⟨-, -, first, preimageLen, len, partialLen, cs, hrecorded⟩ := recordStream_ok hrun
  have hdata := hrecorded.startsWithData_iff.mpr (hrecorded.buffers_inside_iff.mp (h _ _ _ _ _ _ hrun).inside)
  exact absurd hdata (by decide +kernel)

end LedgerBabylon
