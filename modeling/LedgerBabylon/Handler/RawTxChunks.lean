import LedgerBabylon.Lib.ResumableOutcomes
import LedgerBabylon.Handler.RawTxStable
import Mathlib.Data.List.Infix

/-!
# The transaction parser does not depend on the chunks

The parser waits with at most 31 unread bytes as long as the lengths it has read are below `2^31`: it
reads nothing in pieces of more than 32 bytes. Inside a script this needs that the counter has not
passed the size, which holds from the step on that sets the counter to zero.
-/

namespace LedgerBabylon

open Resumable List

/-- The length of the last script or witness element, as far as one has been read, is below `2^31`. -/
structure TxState.ShortLengths (t : TxState) : Prop where
  scriptsig : t.scriptsigSize.toNat < 2 ^ 31
  scriptpubkey : t.scriptpubkeySize.toNat < 2 ^ 31
  witnessElement : t.witnessState.curWitElemLen.toNat < 2 ^ 31

instance (t : TxState) : Decidable t.ShortLengths :=
  decidable_of_iff (t.scriptsigSize.toNat < 2 ^ 31 ∧ t.scriptpubkeySize.toNat < 2 ^ 31
      ∧ t.witnessState.curWitElemLen.toNat < 2 ^ 31)
    ⟨fun ⟨h1, h2, h3⟩ => ⟨h1, h2, h3⟩, fun h => ⟨h.1, h.2, h.3⟩⟩

/-- Every length of a script or witness element in the stream is below `2^31`. Each length is in the
state when the stream has been read up to it. -/
def ShortLengths (outputIndex : Int) (outputs : TxidParserOutputs) (stream : Bytes) : Prop :=
  ∀ a ∈ stream.inits, (run parseRawtxSteps (0, initialTxState outputIndex outputs) a).2.1.2.ShortLengths

def FewUnread {σ : Type} (short : σ → Prop) (s : σ) (rest : Bytes) : Prop := short s → rest.length < 32

theorem toNat_remaining {size counter : UInt32} (h : counter.toNat ≤ size.toNat) :
    (size - counter).toNat = size.toNat - counter.toNat :=
  UInt32.toNat_sub_of_le _ _ (UInt32.le_iff_toNat_le.mpr h)

theorem counter_le_of_readChunk {size counter : UInt32} {a data rest : Bytes}
    (hle : counter.toNat ≤ size.toNat)
    (h : dbufferReadChunk (size - counter) a = some (data, rest)) :
    (counter + UInt32.ofNat data.length).toNat ≤ size.toNat := by
  obtain ⟨hdata, -⟩ := dbufferReadChunk_eq_some h
  rw [toNat_remaining hle] at hdata
  have hsize := size.toNat_lt
  rw [UInt32.toNat_add, UInt32.toNat_ofNat']
  omega

def CounterLe (step k : Nat) (counter size : UInt32) : Prop := k = step → counter.toNat ≤ size.toNat

theorem outcome_parseRawtxinputScriptsig : Outcome (fun s => s.scriptsigCounter.toNat ≤ s.scriptsigSize.toNat)
      (FewUnread fun s => s.scriptsigSize.toNat < 2 ^ 31) (fun _ => True)
      parseRawtxinputScriptsig := by
  apply outcome_doWhile progress_scriptsig
  apply outcome_ofReader
  · intro s a hle hnone hshort
    apply length_lt_of_readChunk_none _ hnone
    rw [toNat_remaining hle]
    omega
  · intro s a data rest hle hread _
    exact ⟨fun _ => counter_le_of_readChunk hle hread, fun _ => trivial⟩

theorem outcome_parseRawtxinputSteps :
    Outcome (fun ks => CounterLe 4 ks.1 ks.2.scriptsigCounter ks.2.scriptsigSize)
      (fun ks => FewUnread (fun s => s.scriptsigSize.toNat < 2 ^ 31) ks.2) (fun _ => True)
      (run parseRawtxinputSteps) := by
  have hbytes (k n : Nat) (hn : n ≤ 32) (hk : k + 1 ≠ 4) :
      Outcome (fun s => CounterLe 4 k s.scriptsigCounter s.scriptsigSize)
        (FewUnread fun s => s.scriptsigSize.toNat < 2 ^ 31)
        (fun s => CounterLe 4 (k + 1) s.scriptsigCounter s.scriptsigSize)
        (InputState.hashBytes n) :=
    outcome_reading (fun _ _ _ hnone _ => length_lt_of_readBytes_none hn hnone) fun _ _ _ heq => absurd heq hk
  refine outcome_run (I := fun k (s : InputState) => CounterLe 4 k s.scriptsigCounter s.scriptsigSize) ?_
  intro k p hp
  match k, hp with
  | 0, rfl => exact hbytes 0 32 (by omega) (by omega)
  | 1, rfl => exact hbytes 1 4 (by omega) (by omega)
  | 2, rfl =>
    exact outcome_reading (fun _ _ _ hnone _ => length_lt_of_readVarint_none hnone)
      fun _ _ _ heq => absurd heq (by omega)
  | 3, rfl => exact outcome_always fun _ _ _ => Nat.zero_le _
  | 4, rfl =>
    refine outcome_parseRawtxinputScriptsig.imp (fun s => ?_) (fun _ _ => id) fun _ _ heq => ?_
    · exact ⟨fun h => h rfl, fun h _ => h⟩
    · omega
  | 5, rfl => exact hbytes 5 4 (by omega) (by omega)

theorem outcome_parseRawtxoutputScriptpubkey (relevant : Bool) :
    Outcome (fun s => s.scriptpubkeyCounter.toNat ≤ s.scriptpubkeySize.toNat)
      (FewUnread fun s => s.scriptpubkeySize.toNat < 2 ^ 31) (fun _ => True)
      (parseRawtxoutputScriptpubkey relevant) := by
  apply outcome_doWhile (progress_scriptpubkey relevant)
  apply outcome_ofReader
  · intro s a hle hnone hshort
    apply length_lt_of_readChunk_none _ hnone
    rw [toNat_remaining hle]
    omega
  · intro s a data rest hle hread hkept
    cases hlong : relevant && decide (maxPrevoutScriptpubkeyLen < s.outputs.voutScriptpubkeyLen.toNat) with
    | true => simp [hlong] at hkept
    | false =>
      simp only [Bool.false_eq_true, if_false]
      exact ⟨fun _ => counter_le_of_readChunk hle hread, fun _ => trivial⟩

theorem outcome_parseRawtxoutputSteps (relevant : Bool) :
    Outcome (fun ks => CounterLe 3 ks.1 ks.2.scriptpubkeyCounter ks.2.scriptpubkeySize)
      (fun ks => FewUnread (fun s => s.scriptpubkeySize.toNat < 2 ^ 31) ks.2) (fun _ => True)
      (run (parseRawtxoutputSteps relevant)) := by
  refine outcome_run
    (I := fun k (s : OutputState) => CounterLe 3 k s.scriptpubkeyCounter s.scriptpubkeySize) ?_
  intro k p hp
  match k, hp with
  | 0, rfl =>
    exact outcome_reading (fun _ _ _ hnone _ => length_lt_of_readBytes_none (by omega) hnone)
      fun _ _ _ heq => absurd heq (by omega)
  | 1, rfl =>
    exact outcome_reading (fun _ _ _ hnone _ => length_lt_of_readVarint_none hnone)
      fun _ _ _ heq => absurd heq (by omega)
  | 2, rfl => exact outcome_always fun _ _ _ => Nat.zero_le _
  | 3, rfl =>
    refine (outcome_parseRawtxoutputScriptpubkey relevant).imp (fun s => ?_) (fun _ _ => id) fun _ _ heq => ?_
    · exact ⟨fun h => h rfl, fun h _ => h⟩
    · omega

theorem outcome_parseRawtxInputs :
    Outcome (fun t => CounterLe 4 t.inputStep t.scriptsigCounter t.scriptsigSize)
      (FewUnread TxState.ShortLengths) (fun _ => True) parseRawtxInputs := by
  have hinput : Outcome (fun t => CounterLe 4 t.inputStep t.scriptsigCounter t.scriptsigSize)
      (FewUnread TxState.ShortLengths) (fun _ => True) runInput := by
    apply outcome_ignoreError
    apply outcome_on (fun _ => rfl)
    intro t
    exact outcome_parseRawtxinputSteps.imp (fun _ => Iff.rfl)
      (fun _ _ hunread hshort => hunread hshort.scriptsig) fun _ => id
  apply outcome_loop progress_parseRawtxInput (fun _ _ => trivial)
  refine Outcome.and_keepsCond ?_ keepsCond_parseRawtxInput
  exact outcome_andThen_always hinput fun _ _ heq => absurd heq (by simp)

theorem outcome_parseRawtxOutputs :
    Outcome (fun t => CounterLe 3 t.outputStep t.scriptpubkeyCounter t.scriptpubkeySize)
      (FewUnread TxState.ShortLengths) (fun _ => True) parseRawtxOutputs := by
  have houtput : Outcome (fun t => CounterLe 3 t.outputStep t.scriptpubkeyCounter t.scriptpubkeySize)
      (FewUnread TxState.ShortLengths) (fun _ => True) runOutput := by
    apply outcome_ignoreError
    apply outcome_on (fun _ => rfl)
    intro t
    exact (outcome_parseRawtxoutputSteps t.relevant).imp (fun _ => Iff.rfl)
      (fun _ _ hunread hshort => hunread hshort.scriptpubkey) fun _ => id
  apply outcome_loop progress_parseRawtxOutput (fun _ _ => trivial)
  refine Outcome.and_keepsCond ?_ keepsCond_parseRawtxOutput
  exact outcome_andThen_always houtput fun _ _ heq => absurd heq (by simp)

theorem outcome_witnessElementBytes :
    Outcome (fun _ => True) (FewUnread fun w => w.curWitElemLen.toNat < 2 ^ 31)
      (fun _ => True) witnessElementBytes := by
  apply outcome_loop progress_witnessChunk (fun _ _ => trivial)
  apply outcome_ofReader
  · intro w a hw hnone hshort
    apply length_lt_of_readChunk_none _ hnone
    have hlt := UInt32.lt_iff_toNat_lt.mp (of_decide_eq_true hw.2)
    rw [toNat_remaining hlt.le]
    omega
  · intros
    trivial

theorem outcome_witnesses (nInputs : UInt32) :
    Outcome (fun _ => True) (FewUnread fun w => w.curWitElemLen.toNat < 2 ^ 31)
      (fun _ => True) (witnesses nInputs) := by
  have hcount (flag : WitnessState → Bool) (f : WitnessState → Nat → WitnessState) :
      Outcome (fun _ => True) (FewUnread fun w => w.curWitElemLen.toNat < 2 ^ 31)
        (fun _ => True) (skipIf flag (reading dbufferReadVarint f)) :=
    outcome_skipIf (fun _ _ _ => trivial) <|
      outcome_reading (fun _ _ _ hnone _ => length_lt_of_readVarint_none hnone) fun _ _ _ => trivial
  have helements : Outcome (fun _ => True) (FewUnread fun w => w.curWitElemLen.toNat < 2 ^ 31) (fun _ => True)
      witnessElements := by
    apply outcome_loop progress_witnessElement (fun _ _ => trivial)
    refine Outcome.and_keepsCond ?_ keepsCond_witnessElement
    exact outcome_andThen_always
      (outcome_andThen (hcount _ _) outcome_witnessElementBytes fun _ => id) fun _ _ => trivial
  apply outcome_loop (progress_witness nInputs) (fun _ _ => trivial)
  refine Outcome.and_keepsCond ?_ (keepsCond_witness nInputs)
  exact outcome_andThen_always (outcome_andThen (hcount _ _) helements fun _ => id) fun _ _ => trivial

def CountersLe (k : Nat) (t : TxState) : Prop :=
  (k = 4 → CounterLe 4 t.inputStep t.scriptsigCounter t.scriptsigSize)
    ∧ (k = 7 → CounterLe 3 t.outputStep t.scriptpubkeyCounter t.scriptpubkeySize)

theorem countersLe_of_ne {k : Nat} (h4 : k ≠ 4) (h7 : k ≠ 7) (t : TxState) : CountersLe k t :=
  ⟨fun h => absurd h h4, fun h => absurd h h7⟩

theorem outcome_parseRawtxSteps :
    Outcome (fun ks => CountersLe ks.1 ks.2) (fun ks => FewUnread TxState.ShortLengths ks.2)
      (fun _ => True) (run parseRawtxSteps) := by
  have hbytes (k : Nat) (h4 : k + 1 ≠ 4) (h7 : k + 1 ≠ 7) :
      Outcome (CountersLe k) (FewUnread TxState.ShortLengths) (CountersLe (k + 1)) TxState.hashBytes :=
    outcome_reading (fun _ _ _ hnone _ => length_lt_of_readBytes_none (by omega) hnone)
      fun _ _ _ => countersLe_of_ne h4 h7 _
  have hvarint (k : Nat) (f : TxState → Nat → TxState) (h4 : k + 1 ≠ 4) (h7 : k + 1 ≠ 7) :
      Outcome (CountersLe k) (FewUnread TxState.ShortLengths) (CountersLe (k + 1))
        (reading dbufferReadVarint f) :=
    outcome_reading (fun _ _ _ hnone _ => length_lt_of_readVarint_none hnone)
      fun _ _ _ => countersLe_of_ne h4 h7 _
  refine outcome_run (I := CountersLe) ?_
  intro k p hp
  match k, hp with
  | 0, rfl => exact hbytes 0 (by omega) (by omega)
  | 1, rfl =>
    exact outcome_ofReader (fun _ _ _ hnone _ => length_lt_of_readSegwitFlag_none hnone)
      fun _ _ _ _ _ _ _ => countersLe_of_ne (by omega) (by omega) _
  | 2, rfl => exact hvarint 2 _ (by omega) (by omega)
  | 3, rfl =>
    refine outcome_always fun t _ => ⟨fun _ heq => absurd heq (by simp), fun h => ?_⟩
    omega
  | 4, rfl =>
    refine outcome_parseRawtxInputs.imp (fun t => ?_) (fun _ _ => id) fun t _ =>
      countersLe_of_ne (by omega) (by omega) t
    exact ⟨fun h => h.1 rfl, fun h => ⟨fun _ => h, fun h7 => absurd h7 (by omega)⟩⟩
  | 5, rfl => exact hvarint 5 _ (by omega) (by omega)
  | 6, rfl =>
    refine outcome_always fun t _ => ⟨fun h => ?_, fun _ heq => absurd heq (by simp)⟩
    omega
  | 7, rfl =>
    refine outcome_parseRawtxOutputs.imp (fun t => ?_) (fun _ _ => id) fun t _ =>
      countersLe_of_ne (by omega) (by omega) t
    exact ⟨fun h => h.2 rfl, fun h => ⟨fun h4 => absurd h4 (by omega), fun _ => h⟩⟩
  | 8, rfl => exact outcome_always fun _ _ => countersLe_of_ne (by omega) (by omega) _
  | 9, rfl =>
    apply outcome_skipIf
    · exact fun t _ _ => countersLe_of_ne (by omega) (by omega) t
    · apply outcome_on (fun _ => rfl)
      intro t
      refine (outcome_witnesses t.nInputs).imp (fun w => ?_)
        (fun _ _ hunread hshort => hunread hshort.witnessElement)
        fun _ _ => countersLe_of_ne (by omega) (by omega) _
      exact ⟨fun _ => trivial, fun _ => countersLe_of_ne (by omega) (by omega) _⟩
  | 10, rfl => exact hbytes 10 (by omega) (by omega)

def rawtxFlow (outputIndex : Int) (outputs : TxidParserOutputs) (chunks : List Bytes) : RawtxFlow :=
  chunks.foldl cbProcessData (rawtxFlowInit outputIndex outputs)

section

variable {outputIndex : Int} {outputs : TxidParserOutputs}

theorem length_unread_lt {stream rest : Bytes} {ks : Nat × TxState}
    (hshort : ShortLengths outputIndex outputs stream) {a : Bytes} (ha : a <+: stream)
    (h : run parseRawtxSteps (0, initialTxState outputIndex outputs) a = (.more, ks, rest)) :
    rest.length < 32 := by
  have hlengths := hshort a ((mem_inits a stream).mpr ha)
  rw [h] at hlengths
  exact outcome_parseRawtxSteps.unread (countersLe_of_ne (by omega) (by omega) _) h hlengths

theorem fedOn_rawtxFlow {chunks : List Bytes} (hshort : ShortLengths outputIndex outputs chunks.flatten) :
    FedOn (run parseRawtxSteps) (0, initialTxState outputIndex outputs) chunks.flatten
      (rawtxFlow outputIndex outputs chunks) := by
  have hstart : FedOn (run parseRawtxSteps) (0, initialTxState outputIndex outputs) []
      (rawtxFlowInit outputIndex outputs) := rfl
  refine fedOn_foldl_feed (resumes_run resumes_parseRawtxSteps).toStable (staysDone_run _) ?_ hstart
  intro b ks rest hb hrun
  exact (length_unread_lt hshort hb hrun).le

theorem ShortLengths.take {chunks : List Bytes}
    (hshort : ShortLengths outputIndex outputs chunks.flatten) (k : Nat) :
    ShortLengths outputIndex outputs (chunks.take k).flatten := by
  intro a ha
  refine hshort a ((mem_inits a _).mpr (((mem_inits a _).mp ha).trans ?_))
  refine ⟨(chunks.drop k).flatten, ?_⟩
  rw [← flatten_append, take_append_drop]

theorem waits_of_fedOn {a : Bytes} {flow : RawtxFlow}
    (h : FedOn (run parseRawtxSteps) (0, initialTxState outputIndex outputs) a flow)
    (hfailed : flow.failed = false) (hstep : flow.state.1 < parseRawtxSteps.length) :
    run parseRawtxSteps (0, initialTxState outputIndex outputs) a = (.more, flow.state, flow.store) := by
  unfold FedOn at h
  rcases hrun : run parseRawtxSteps (0, initialTxState outputIndex outputs) a with
    ⟨_ | _ | _, ks, rest⟩ <;> simp only [hrun] at h
  · have hk := runFrom_done hrun
    rw [← h.1, length_drop] at hk
    omega
  · rw [h]
  · rw [h.2] at hfailed
    cases hfailed

/-- **Parsing does not depend on the chunks.** Two ways of cutting a stream whose lengths are short end
in the same state and error flag. After each chunk, unless the parser is complete or failed, fewer than
32 bytes are in the store: what a run on everything received so far leaves unread. -/
theorem rawtxFlow_chunks {chunks chunks' : List Bytes} (hsame : chunks.flatten = chunks'.flatten)
    (hshort : ShortLengths outputIndex outputs chunks.flatten) :
    (rawtxFlow outputIndex outputs chunks).state = (rawtxFlow outputIndex outputs chunks').state
      ∧ (rawtxFlow outputIndex outputs chunks).failed = (rawtxFlow outputIndex outputs chunks').failed
      ∧ ∀ k, (rawtxFlow outputIndex outputs (chunks.take k)).failed = false →
        (rawtxFlow outputIndex outputs (chunks.take k)).state.1 < parseRawtxSteps.length →
        (rawtxFlow outputIndex outputs (chunks.take k)).store.length < 32
          ∧ run parseRawtxSteps (0, initialTxState outputIndex outputs) (chunks.take k).flatten
            = (.more, (rawtxFlow outputIndex outputs (chunks.take k)).state,
                (rawtxFlow outputIndex outputs (chunks.take k)).store) := by
  have hfed := fedOn_rawtxFlow hshort
  have hfed' := fedOn_rawtxFlow (hsame ▸ hshort)
  rw [← hsame] at hfed'
  obtain ⟨hstate, hfailed⟩ := hfed.congr hfed'
  refine ⟨hstate, hfailed, fun k hnot hstep => ?_⟩
  have hwaits := waits_of_fedOn (fedOn_rawtxFlow (hshort.take k)) hnot hstep
  exact ⟨length_unread_lt (hshort.take k) List.prefix_rfl hwaits, hwaits⟩

end

/-- The start of a segwit transaction with one input, cut inside the version and the marker, or not. -/
theorem rawtxFlow_chunks_segwitStart :
    (rawtxFlow (-1) ⟨0, 0, fun _ => 0⟩ [[2, 0, 0], [0, 0], [1, 1, 0xAA, 0xBB]]).state
      = (rawtxFlow (-1) ⟨0, 0, fun _ => 0⟩ [[2, 0, 0, 0, 0, 1, 1, 0xAA, 0xBB]]).state :=
  (rawtxFlow_chunks (by decide) (by unfold ShortLengths; decide +kernel)).1

end LedgerBabylon
