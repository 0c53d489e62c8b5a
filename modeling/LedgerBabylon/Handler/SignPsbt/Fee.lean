import LedgerBabylon.Handler.SignPsbt.Loops
import LedgerBabylon.Handler.Clients

/-!
# The fee

The totals of the inputs and outputs are summed up modulo `2^64`, and so is ten times the fee when it
is compared with the total of the inputs. What is shown is exact as long as nothing wraps around, or
both totals do so equally often and the comparison comes out the same.
-/

namespace LedgerBabylon

open Exec List

variable {σ : Type} {dev : Device σ} {g : GlobalState} {hashes : TxHashes} {kinds : List Kind}

variable {e : Event} {w w' : World σ} {kind : Kind} {u : Unit} {map : MerkleizedMapCommitment}
  {input input' : InputInfo} {index inputs : Nat}

def Event.inputAmount? : Event → Option UInt64
  | .inputAmount amount => some amount
  | _ => none

def Event.outputAmount? : Event → Option UInt64
  | .outputAmount amount => some amount
  | _ => none

def inputAmounts (trace : List Event) : List UInt64 := trace.filterMap Event.inputAmount?

def outputAmounts (trace : List Event) : List UInt64 := trace.filterMap Event.outputAmount?

def total : List UInt64 → Nat
  | [] => 0
  | amount :: amounts => amount.toNat + total amounts

theorem total_append (as bs : List UInt64) : total (as ++ bs) = total as + total bs := by
  induction as with
  | nil => simp [total]
  | cons a as ih => simp only [cons_append, total, ih, Nat.add_assoc]

theorem inputAmount?_eq_none (h : e.kind ≠ .inputAmount) : e.inputAmount? = none := by
  cases e <;> first | rfl | exact absurd rfl h

theorem outputAmount?_eq_none (h : e.kind ≠ .outputAmount) : e.outputAmount? = none := by
  cases e <;> first | rfl | exact absurd rfl h

theorem Run.inputAmounts_eq (h : Run dev g hashes kinds w w')
    (hkinds : .inputAmount ∉ kinds) : inputAmounts w'.trace = inputAmounts w.trace :=
  h.filterMap_eq fun _ he => inputAmount?_eq_none fun heq => hkinds (heq ▸ he)

theorem Run.outputAmounts_eq (h : Run dev g hashes kinds w w')
    (hkinds : .outputAmount ∉ kinds) : outputAmounts w'.trace = outputAmounts w.trace :=
  h.filterMap_eq fun _ he => outputAmount?_eq_none fun heq => hkinds (heq ▸ he)

theorem inputAmounts_added (trace : List Event) (amount : UInt64) :
    inputAmounts (trace ++ [.inputAmount amount]) = inputAmounts trace ++ [amount] :=
  filterMap_append

theorem outputAmounts_added (trace : List Event) (amount : UInt64) :
    outputAmounts (trace ++ [.outputAmount amount]) = outputAmounts trace ++ [amount] :=
  filterMap_append

structure TotalsOk (w : World σ) : Prop where
  inputs : w.st.inputsTotalAmount.toNat = total (inputAmounts w.trace) % 2 ^ 64
  outputs : w.st.outputs.totalAmount.toNat = total (outputAmounts w.trace) % 2 ^ 64

theorem TotalsOk.step (h : TotalsOk w)
    (hstep : Step dev g hashes kind w w') (hkind : kind ≠ .reset) : TotalsOk w' := by
  have hrun : Run dev g hashes [kind] w w' := hstep.run (by simp)
  have hinputs : kind ≠ .inputAmount → inputAmounts w'.trace = inputAmounts w.trace :=
    fun hne => hrun.inputAmounts_eq (by simpa using Ne.symm hne)
  have houtputs : kind ≠ .outputAmount → outputAmounts w'.trace = outputAmounts w.trace :=
    fun hne => hrun.outputAmounts_eq (by simpa using Ne.symm hne)
  cases hstep with
  | resetOutputs => exact absurd rfl hkind
  | inputAmount =>
    refine ⟨?_, by rw [houtputs (by simp)]; exact h.outputs⟩
    simp only [World.append, inputAmounts_added, total_append, UInt64.toNat_add, h.inputs]
    simp [total]
  | outputAmount =>
    refine ⟨by rw [hinputs (by simp)]; exact h.inputs, ?_⟩
    simp only [World.append, outputAmounts_added, total_append, UInt64.toNat_add, h.outputs]
    simp [total]
  | output heq => exact ⟨h.inputs, by simpa only [heq] using h.outputs⟩
  | _ =>
    refine ⟨?_, ?_⟩
    · rw [hinputs (by simp)]
      exact h.inputs
    · rw [houtputs (by simp)]
      exact h.outputs

theorem TotalsOk.run (h : TotalsOk w) (hrun : Run dev g hashes kinds w w')
    (hkinds : .reset ∉ kinds) : TotalsOk w' :=
  hrun.induction (fun _ hkind _ _ hstep hw => hw.step hstep fun heq => hkinds (heq ▸ hkind)) h

theorem addInputAmount_ok {amount : UInt64} (h : addInputAmount amount w = .ok u w') :
    inputAmounts w'.trace = inputAmounts w.trace ++ [amount] := by
  cases h
  exact inputAmounts_added w.trace amount

theorem checkNonWitnessUtxo_ok (h : checkNonWitnessUtxo dev map input w = .ok input' w') :
    input'.hasNonWitnessUtxo = input.hasNonWitnessUtxo ∧ input'.hasWitnessUtxo = input.hasWitnessUtxo ∧
    (inputAmounts w'.trace).length =
      (inputAmounts w.trace).length + if input.hasNonWitnessUtxo then 1 else 0 := by
  unfold checkNonWitnessUtxo at h
  split at h
  · next hnonwitness =>
      obtain ⟨utxo, w1, hutxo, h⟩ := bind_ok h
      obtain ⟨s, -, rfl⟩ := fetch_ok_iff.mp hutxo
      obtain ⟨_, w2, hadd, h⟩ := bind_ok h
      obtain ⟨rfl, rfl⟩ := pure_ok h
      refine ⟨rfl, rfl, ?_⟩
      rw [addInputAmount_ok hadd, length_append, if_pos hnonwitness]
      rfl
  · next hnonwitness =>
      obtain ⟨rfl, rfl⟩ := pure_ok h
      simp [hnonwitness]

theorem checkWitnessUtxo_ok (h : checkWitnessUtxo dev map input w = .ok input' w') :
    (inputAmounts w'.trace).length = (inputAmounts w.trace).length +
      if input.hasWitnessUtxo ∧ ¬input.hasNonWitnessUtxo then 1 else 0 := by
  unfold checkWitnessUtxo at h
  split at h
  · next hwitness =>
      obtain ⟨utxo, w1, hutxo, h⟩ := bind_ok h
      obtain ⟨s, -, rfl⟩ := fetch_ok_iff.mp hutxo
      split at h
      · next hnonwitness =>
          obtain ⟨rfl, rfl⟩ := pure_ok h
          simp [hnonwitness]
      · next hnonwitness =>
          obtain ⟨_, w2, hadd, h⟩ := bind_ok h
          obtain ⟨rfl, rfl⟩ := pure_ok h
          rw [addInputAmount_ok hadd, length_append]
          simp [hwitness, hnonwitness]
  · next hwitness =>
      obtain ⟨rfl, rfl⟩ := pure_ok h
      simp [hwitness]

theorem checkInput_ok {s s' : Session σ}
    (h : checkInput input s = .ok u s') : input.hasNonWitnessUtxo ∨ input.hasWitnessUtxo := by
  obtain ⟨_, s1, -, h⟩ := bind_ok h
  by_contra hnone
  simp only [not_or, Bool.not_eq_true] at hnone
  simp [hnone] at h

theorem InputProcessed.amount (hashes : TxHashes) (h : InputProcessed dev g index w w')
    (hw : KeysOk dev g w) : (inputAmounts w'.trace).length = (inputAmounts w.trace).length + 1 := by
  obtain @⟨map, input, input1, input2, isInternal, w1, w2, w3, s1, s3, hread, hcheck, hnonwitness,
    hwitness, hinternal, hfinish⟩ := h
  have hdoes1 : Does dev g hashes readKinds (fun _ => True) (readInput dev g index) := does_readInput index
  obtain ⟨hrun1, hkeys1, -⟩ := hdoes1.run_ok hread hw
  have hdoes2 : Does dev g hashes amountKinds (fun _ => True) (checkNonWitnessUtxo dev map input) :=
    does_checkNonWitnessUtxo map input
  obtain ⟨-, hkeys2, -⟩ := hdoes2.run_ok hnonwitness (hkeys1.read (asks_checkInput input).reads hcheck)
  have hdoes3 : Does dev g hashes amountKinds (fun _ => True) (checkWitnessUtxo dev map input1) :=
    does_checkWitnessUtxo map input1
  obtain ⟨-, hkeys3, -⟩ := hdoes3.run_ok hwitness hkeys2
  have hdoes4 : Does dev g hashes inputKinds (fun _ => True)
      (finishInput dev g map index input2 isInternal) := does_finishInput map index input2 isInternal
  obtain ⟨hrun4, -, -⟩ := hdoes4.run_ok hfinish (hkeys3.read (reads_isInOutInternal _ _) hinternal)
  obtain ⟨hnon, hwit, hcount2⟩ := checkNonWitnessUtxo_ok hnonwitness
  have hcount3 := checkWitnessUtxo_ok hwitness
  rw [hrun4.inputAmounts_eq (by simp), hcount3, hcount2, hrun1.inputAmounts_eq (by simp), hnon, hwit]
  rcases checkInput_ok hcheck with hpresent | hpresent
  · simp [hpresent]
  · by_cases hnonpresent : input.hasNonWitnessUtxo <;> simp [hpresent, hnonpresent]

theorem preprocessInputs_amounts (hashes : TxHashes)
    (hw : KeysOk dev g w) (h : preprocessInputs dev g w = .ok u w') :
    (inputAmounts w'.trace).length = (inputAmounts w.trace).length + g.nInputs := by
  obtain ⟨_, w1, hfill, hloop⟩ := bind_ok h
  have hdoes : Does dev g hashes fillKinds (fun _ => True) (fillInternalKeyExpressions dev g) :=
    does_fillInternalKeyExpressions
  obtain ⟨hrun, hkeys, -⟩ := hdoes.run_ok hfill hw
  rw [← hrun.inputAmounts_eq (by simp)]
  have hresult := forIndices_ok (J := fun i v => KeysOk dev g v ∧
    (inputAmounts v.trace).length = (inputAmounts w1.trace).length + i) hloop ?_ ⟨hkeys, rfl⟩
  · simpa using hresult.2
  · rintro i v v' - - hround ⟨hv, hcount⟩
    have hdoes : Does dev g hashes amountKinds (fun _ => True) (preprocessInput dev g i) :=
      does_preprocessInput i
    refine ⟨(hdoes.run_ok hround hv).2.1, ?_⟩
    rw [(preprocessInput_ok hround).amount hashes hv, hcount, Nat.add_assoc]

theorem OutputProcessed.amount {internal internal' : List Bool} (hashes : TxHashes)
    (h : OutputProcessed dev g index internal w internal' w') (hw : KeysOk dev g w) :
    (outputAmounts w'.trace).length = (outputAmounts w.trace).length + 1 := by
  obtain @⟨map, inOut, raw, output, w1, s1, s2, s3, hread, hamount, houtput, hset, hnote⟩ := h
  have hdoes1 : Does dev g hashes fetchKinds (fun _ => True)
      (callGetMerkleizedMapWithCallback dev g.outputsRoot g.nOutputs index (outputKeysCallback dev)
        .zero) := does_readOutputMap index
  obtain ⟨hrun1, hkeys1, -⟩ := hdoes1.run_ok hread hw
  have hkeys2 := hkeys1.read (asks_fetchExact map _ _ _).reads hamount
  obtain ⟨-, hcache, hscript⟩ := (reads_readOutput map inOut _).run_ok houtput hkeys2.2
  obtain ⟨-, -, hsame⟩ := setInternalOutput_ok hset
  have hkeys3 : KeysOk dev g (w1.noteOutputRead output s3) := ⟨hkeys1.1, hsame.symm ▸ hcache⟩
  have hdoes2 : Does dev g hashes outputKinds (fun _ => True) (noteOutput dev output) :=
    does_noteOutput hscript
  obtain ⟨hrun2, -, -⟩ := hdoes2.run_ok hnote hkeys3
  have hread : outputAmounts (w1.noteOutputRead output s3).trace =
      outputAmounts w1.trace ++ [output.amount] := by
    simp [World.noteOutputRead, outputAmounts, filterMap_append, Event.outputAmount?]
  rw [hrun2.outputAmounts_eq (by simp), hread, hrun1.outputAmounts_eq (by simp), length_append]
  rfl

section

variable {protocolVersion : Nat} {raw : Bytes} {env : σ}

theorem outputAmounts_inputs (p : Preparation dev protocolVersion raw env) :
    outputAmounts p.inputs.trace = [] := by
  rw [(p.run_inputs p.txHashes).1.outputAmounts_eq (by simp),
    (p.toInitialised.run p.txHashes).1.outputAmounts_eq (by simp)]
  rfl

theorem inputAmounts_start (i : Initialised dev protocolVersion raw env) (hashes : TxHashes) :
    inputAmounts i.start.trace = [] := by
  rw [(i.run hashes).1.inputAmounts_eq (by simp)]
  rfl

theorem totalsOk_inputs (p : Preparation dev protocolVersion raw env) : TotalsOk p.inputs := by
  have hinitial : TotalsOk (World.initial env) := ⟨rfl, rfl⟩
  exact (hinitial.run (p.toInitialised.run p.txHashes).1 (by simp)).run (p.run_inputs p.txHashes).1 (by simp)

/-- When the transaction is shown, the totals are those of all inputs and outputs, and the outputs do
not exceed the inputs modulo `2^64`. -/
theorem Preparation.totals (p : Preparation dev protocolVersion raw env) :
    TotalsOk p.prepared ∧ p.prepared.st.outputs.totalAmount ≤ p.prepared.st.inputsTotalAmount ∧
    (inputAmounts p.prepared.trace).length = p.g.nInputs ∧
    (outputAmounts p.prepared.trace).length = p.g.nOutputs := by
  obtain ⟨v, s, hloop, hle, -, houtputs⟩ := preprocessOutputs_ok p.outputs_ok
  have hstart : TotalsOk { p.inputs with st := { p.inputs.st with
      outputs := ⟨0, 0, 0, []⟩, nExternalOutputs := 0 } } :=
    ⟨(totalsOk_inputs p).inputs, by rw [outputAmounts_inputs p]; rfl⟩
  have hkeys := (p.run_inputs p.txHashes).2
  have hdoes : Does dev p.g p.txHashes outputsKinds (fun _ => True)
      (preprocessOutputsLoop dev p.g p.g.nOutputs 0 []) := does_preprocessOutputsLoop _ _ _ (by omega)
  obtain ⟨hrun, -, -⟩ := hdoes.run_ok hloop hkeys
  have hloopTotals : TotalsOk v := hstart.run hrun (by simp)
  have htotals : TotalsOk p.outputs := by
    rw [houtputs]
    exact ⟨hloopTotals.inputs, hloopTotals.outputs⟩
  have hprepared := (p.run_hashed p.txHashes).1
  have hst : p.prepared.st = v.st := by rw [hprepared.st_eq (by simp [Kind.quiet]), houtputs]
  refine ⟨htotals.run hprepared (by simp), by rwa [hst], ?_, ?_⟩
  · rw [hprepared.inputAmounts_eq (by simp), (p.run_outputs p.txHashes).1.inputAmounts_eq (by simp),
      preprocessInputs_amounts p.txHashes (p.toInitialised.run p.txHashes).2 p.inputs_ok,
      inputAmounts_start _ p.txHashes]
    simp
  · have hcount := preprocessOutputsLoop_ok (J := fun i _ u => KeysOk dev p.g u ∧
      (outputAmounts u.trace).length = i) hloop ?_ ⟨hkeys, by rw [outputAmounts_inputs p]; rfl⟩
    · rw [hprepared.outputAmounts_eq (by simp), houtputs]
      simpa using hcount.2
    · rintro i b u b' u' - hi hround ⟨hu, hlen⟩
      have hdoes : Does dev p.g p.txHashes outputsKinds (fun _ => True) (preprocessOutput dev p.g i b) :=
        does_preprocessOutput (by omega) b
      refine ⟨(hdoes.run_ok hround hu).2.1, ?_⟩
      rw [(preprocessOutput_ok hround).amount p.txHashes hu, hlen]

structure FeesOk (w : World σ) : Prop where
  totals : TotalsOk w
  le : w.st.outputs.totalAmount ≤ w.st.inputsTotalAmount
  shown : ∀ screen warnings accepted fee, .shown screen warnings accepted ∈ w.trace →
    screen.fee? = some fee → fee = w.st.fee ∧ warnings.highFee = w.st.isHighFee

def Kind.changesTotals : Kind → Bool
  | .inputAmount | .outputAmount | .output | .reset => true
  | _ => false

theorem FeesOk.step (h : FeesOk w)
    (hstep : Step dev g hashes kind w w') (hkind : kind.changesTotals = false) : FeesOk w' := by
  have htotals := h.totals.step hstep (fun heq => by simp [heq, Kind.changesTotals] at hkind)
  cases hstep with
  | inputAmount | outputAmount | output | outputRead | resetOutputs =>
    simp [Kind.changesTotals] at hkind
  | session | keys | nonces | externalInput | warning | highFee => exact ⟨htotals, h.le, h.shown⟩
  | shown hfee =>
    refine ⟨htotals, h.le, fun screen warnings accepted fee hmem hscreen => ?_⟩
    rcases mem_append.mp hmem with hmem | hmem
    · exact h.shown screen warnings accepted fee hmem hscreen
    · cases mem_singleton.mp hmem
      exact hfee fee hscreen
  | _ =>
    refine ⟨htotals, h.le, fun screen warnings accepted fee hmem hscreen => ?_⟩
    rcases mem_append.mp hmem with hmem | hmem
    · exact h.shown screen warnings accepted fee hmem hscreen
    · simp at hmem

theorem FeesOk.run {kinds : List Kind} (h : FeesOk w) (hrun : Run dev g hashes kinds w w')
    (hkinds : ∀ kind ∈ kinds, kind.changesTotals = false) : FeesOk w' :=
  hrun.induction (fun kind hkind _ _ hstep hw => hw.step hstep (hkinds kind hkind)) h

theorem Preparation.feesOk (p : Preparation dev protocolVersion raw env) : FeesOk p.prepared := by
  refine ⟨p.totals.1, p.totals.2.1, fun screen warnings accepted fee hmem => ?_⟩
  rcases (p.run p.txHashes).mem_trace hmem with hmem | hkind
  · simp [World.initial] at hmem
  · simp [Event.kind] at hkind

theorem Initialised.counts (i : Initialised dev protocolVersion raw env) :
    i.g.nInputs = i.req.nInputs ∧ i.g.nOutputs = i.req.nOutputs := by
  obtain ⟨fields, wallet, fingerprint, -, -, -, -, -, -, hg, -⟩ := initGlobalState_ok i.init_ok
  simp [hg]

structure FeeReached (dev : Device σ) (protocolVersion : Nat) (raw : Bytes) (env : σ) (w : World σ) :
    Prop where
  fees : FeesOk w
  counts : ∃ req, readSignPsbtRequest raw = .ok req ∧
    (inputAmounts w.trace).length = req.nInputs ∧ (outputAmounts w.trace).length = req.nOutputs

theorem Preparation.feeReached (p : Preparation dev protocolVersion raw env) :
    FeeReached dev protocolVersion raw env p.prepared := by
  obtain ⟨hinputs, houtputs⟩ := p.counts
  exact ⟨p.feesOk, p.req, p.request_ok, p.totals.2.2.1.trans hinputs, p.totals.2.2.2.trans houtputs⟩

theorem FeeReached.run (h : FeeReached dev protocolVersion raw env w)
    (hrun : Run dev g hashes kinds w w') (hkinds : ∀ kind ∈ kinds, kind.changesTotals = false) :
    FeeReached dev protocolVersion raw env w' := by
  refine ⟨h.fees.run hrun hkinds, ?_⟩
  have hinputs : .inputAmount ∉ kinds := fun hmem => by simpa [Kind.changesTotals] using hkinds _ hmem
  have houtputs : .outputAmount ∉ kinds := fun hmem => by simpa [Kind.changesTotals] using hkinds _ hmem
  rw [hrun.inputAmounts_eq hinputs, hrun.outputAmounts_eq houtputs]
  exact h.counts

theorem feeReached_of_shown {screen : Screen} {warnings : Warnings} {accepted : Bool}
    (hshown : .shown screen warnings accepted ∈ runTrace dev protocolVersion raw env) :
    FeeReached dev protocolVersion raw env
      (finalState (handlerSignPsbt dev protocolVersion raw) (World.initial env)) := by
  rcases (handlerSignPsbt_ends dev protocolVersion raw env).late hshown (by simp [Event.kind]) with
    ⟨p, hrun⟩ | ⟨a, hrun⟩
  · exact p.feeReached.run hrun (by simp [Kind.changesTotals])
  · have haccepted := a.feeReached.run (a.run a.txHashes).1 (by simp [Kind.changesTotals])
    exact haccepted.run hrun (by simp [Kind.changesTotals])

/-- The sums of the amounts wrap around equally often, and the comparison for the warning comes out as
it does for the sums. -/
def SumsFit (inputs outputs : Nat) : Prop := inputs / 2 ^ 64 = outputs / 2 ^ 64 ∧
  (inputs % 2 ^ 64 ≤ 10 * (inputs - outputs) % 2 ^ 64 ∧ 100000 < inputs % 2 ^ 64 ↔
    inputs ≤ 10 * (inputs - outputs) ∧ 100000 < inputs)

theorem sumsFit_of_lt {outputs : Nat} (hle : outputs ≤ inputs) (hinputs : inputs < 2 ^ 64)
    (hfee : 10 * (inputs - outputs) < 2 ^ 64) : SumsFit inputs outputs := by
  unfold SumsFit
  omega

/-- The fee is the difference of the sums, which is not negative, and the warning is given exactly if it
is a tenth or more of inputs of more than 100000. -/
def FeeExact (inputs outputs : Nat) (fee : UInt64) (highFee : Bool) : Prop :=
  outputs ≤ inputs ∧ fee.toNat = inputs - outputs ∧
  (highFee ↔ inputs ≤ 10 * (inputs - outputs) ∧ 100000 < inputs)

theorem feeExact_iff {st : SignPsbtState} {outputs : Nat}
    (hinputs : st.inputsTotalAmount.toNat = inputs % 2 ^ 64)
    (houtputs : st.outputs.totalAmount.toNat = outputs % 2 ^ 64)
    (hle : st.outputs.totalAmount ≤ st.inputsTotalAmount) :
    FeeExact inputs outputs st.fee st.isHighFee ↔ SumsFit inputs outputs := by
  have hfee : st.fee.toNat = inputs % 2 ^ 64 - outputs % 2 ^ 64 := by
    rw [SignPsbtState.fee, UInt64.toNat_sub_of_le _ _ hle, hinputs, houtputs]
  have hhigh : st.isHighFee ↔
      inputs % 2 ^ 64 ≤ 10 * (inputs % 2 ^ 64 - outputs % 2 ^ 64) % 2 ^ 64 ∧ 100000 < inputs % 2 ^ 64 := by
    rw [SignPsbtState.isHighFee, Bool.and_eq_true, decide_eq_true_iff, decide_eq_true_iff,
      UInt64.le_iff_toNat_le, UInt64.lt_iff_toNat_lt, UInt64.toNat_mul, hfee, hinputs]
    rfl
  rw [UInt64.le_iff_toNat_le, hinputs, houtputs] at hle
  rw [FeeExact, hfee, hhigh, SumsFit]
  constructor
  · rintro ⟨hle', heq, hwarning⟩
    rw [heq] at hwarning
    exact ⟨by omega, hwarning⟩
  · rintro ⟨hquotient, hwarning⟩
    have heq : inputs % 2 ^ 64 - outputs % 2 ^ 64 = inputs - outputs := by omega
    exact ⟨by omega, heq, by rw [heq]; exact hwarning⟩

/-- The fee on the screen and its warning are right for the sums of the amounts of all inputs and
outputs, exactly if the sums fit. -/
theorem shownFee_exact_iff (dev : Device σ) (protocolVersion : Nat) (raw : Bytes) (env : σ)
    (screen : Screen) (warnings : Warnings) (accepted : Bool) (fee : UInt64)
    (hshown : .shown screen warnings accepted ∈ runTrace dev protocolVersion raw env)
    (hfee : screen.fee? = some fee) :
    (∃ req, readSignPsbtRequest raw = .ok req ∧
      (inputAmounts (runTrace dev protocolVersion raw env)).length = req.nInputs ∧
      (outputAmounts (runTrace dev protocolVersion raw env)).length = req.nOutputs) ∧
    (FeeExact (total (inputAmounts (runTrace dev protocolVersion raw env)))
        (total (outputAmounts (runTrace dev protocolVersion raw env))) fee warnings.highFee ↔
      SumsFit (total (inputAmounts (runTrace dev protocolVersion raw env)))
        (total (outputAmounts (runTrace dev protocolVersion raw env)))) := by
  obtain ⟨hfees, hcounts⟩ := feeReached_of_shown hshown
  obtain ⟨rfl, hwarning⟩ := hfees.shown screen warnings accepted fee hshown hfee
  refine ⟨hcounts, ?_⟩
  rw [hwarning]
  exact feeExact_iff hfees.totals.inputs hfees.totals.outputs hfees.le

end

namespace Vault

open Endian

def keyInfo : Bytes :=
  text "[3442193e/84'/1'/0']tpubDDNRbZGvdA33cgpY5uy2mmphT7sK4uciRjcQScSd64S5KRyZDxHcPuzs24or84Hywugb2JbEEt2jWH8fduiN9cmZzkSj8sSSx6txXkhXyZs"

def masterPubkey : Bytes := beBytes 33 0x0339a36013301597daef41fbe593a02cc513d0b55527ec2df1050e2e8ff49c85c2

def parentPubkey : Bytes := beBytes 33 0x02a7d30ac6b0cd55b6868f5a65aff1dbdaa18f4315fe04de809fffb2899340ae0f

def accountPubkey : Bytes := beBytes 33 0x037250fb8bc368072d81f1619d6e1d174c0b276f615ab7a8b00660168f38632688

def accountChainCode : Bytes := beBytes 32 0x00b43c8f69fc37de32691dd408fec9e2df389a4a8ca97a6b9158d357af36cb6a

def masterHash : Digest := .ofNat 0xb766246eacc76f47810bbbdcfcdc0b4e54c5983de526c2b660c65a588468e0ab

def parentHash : Digest := .ofNat 0xa064f5c9c1860a053c36c6bc9450d1633d87f6ebb7a74e764703b05ec9d68b8d

def accountHash : Digest := .ofNat 0x254c628c84f79f98bb544a71b5e19946f97b6c71aaf2592100cb68c552874174

def keyHashes : List (Bytes × Digest) :=
  [(masterPubkey, masterHash), (parentPubkey, parentHash),
    (beBytes 13 0x043587cf03b706ea6480000000 ++ accountChainCode ++ accountPubkey, accountHash),
    (accountHash.bytes, .ofNat 0x75c38a6213bf4ac234afad978762c4a6545241a71c0d0c4ad03f2e5c88e63a00)]

def ripemd160 (message : Bytes) : Bytes :=
  ([(masterHash.bytes, beBytes 20 0x3442193e1bb70916e914552172cd4e2dbc9df811),
    (parentHash.bytes, beBytes 20 0xb706ea64436e6f672bc6cda9741e063e70a50604)].lookup message).getD []

def pubkeyAtPath (path : List UInt32) : Option (Bytes × Bytes) :=
  [([], masterPubkey, beBytes 32 0x873dff81c02f525623fd1fe5167eac3a55a049de3d314bb42ee227ffed37d508),
    ([0x80000054, 0x80000001], parentPubkey,
      beBytes 32 0x7ff3ef3755cb2b57dfa7ad16c30495e05ee606c7febbc77596114c2bc594dfe6),
    ([0x80000054, 0x80000001, 0x80000000], accountPubkey, accountChainCode)].lookup path

def crypto : Crypto where
  pubkeyVersion := 0x043587CF
  sha256 := sha256Table keyHashes
  ripemd160
  hmacSha512 _ _ := []
  addPoint _ _ := none
  addPointXonly _ _ := none
  pubkeyAtPath
  privkeyAtPath _ := none
  pubkeyOf _ := none
  ecdsaSign _ _ := none
  schnorrSign _ _ := none

def policyId : Digest := .ofNat 0xa3336bb306730f24243dc128b35b5a1e5fea3a17acac468814dc81f006f337d4

def template : Bytes := text "wpkh(@0/**)"

def templateHash : Digest := .ofNat 0xc8974a0d8bdd29024b2ddb7a7fe8df1d9801b270f4e6c1e7e1011ae39e7c9b00

def keysRoot : Digest := .ofNat 0x79f0606e98d26206f5e6e9736f0935ec26e6531500c11a46ad1079ac88635c1a

/-- A policy with the name "Vault". -/
def serializedPolicy (template : Bytes) (templateHash : Digest) (nKeys : UInt8) (keysRoot : Digest) : Bytes :=
  beBytes 7 0x02055661756c74 ++ UInt8.ofNat template.length :: templateHash.bytes ++ nKeys :: keysRoot.bytes

def policy : KnownData where
  trees := [(keysRoot, [keyInfo])]
  preimages := [(policyId, serializedPolicy template templateHash 1 keysRoot), (templateHash, template)]

def recipient : Bytes := beBytes 22 0x00149a6e6676f98ea0e05489079f5226a518b5a72ae1

def address : Bytes := text "tb1qnfhxvahe36swq4yfq704yf49rz66w2hp7zscra"

def device (crypto : Crypto) (psbt : List (Digest × List Bytes)) : Device (List Bool) where
  crypto
  env := .known crypto.sha256 { policy with trees := policy.trees ++ psbt }
  nbgl := true
  uninitialised _ := 0
  overread _ := 0
  formatScript script := if script = recipient then some address else none
  musigKeyAgg _ := []
  musigNonceAgg _ := (false, ⟨[], []⟩)
  musigNonceGen _ _ _ := none
  musigSign _ _ _ := none
  walletHmac _ := []

def mapElement (size : UInt8) (keys values : Digest) : Bytes := size :: keys.bytes ++ values.bytes

def globalKeys : Digest := .ofNat 0xfcf0a6c700dd13e274b6fba8deea8dd9b26e4eedde3495717cac8408c9c5177f

def globalValues : Digest := .ofNat 0x0bd288cecce2dfc6c9b9245ab747a10870f84c16e986e61b259603b59cf1f3b9

def inputKeys : Digest := .ofNat 0x68bb1dd7b8a13051f7371fc03a74885da5c6d054d27efd7d9e69c0a33d49a3cb

def firstValues : Digest := .ofNat 0x10e0015fa42aefd2643b3ca443ec2f5a20470752d52727cc00c04887051e1252

def smallValues : Digest := .ofNat 0x614667eac159fb4107e30bc7dc0ac000e9f7835eb73865ebb4e7d9eefeeb97f0

def largeValues : Digest := .ofNat 0xe9ad8a5b3b05fa3575ad171169fd59690bd1da03f18dedb61892b5bcde14b6d4

def smallInputs : Digest := .ofNat 0xdda14396c2bac423db10ac422709993452e9ebbd7acf0516a0f25d795c2474b5

def largeInputs : Digest := .ofNat 0xfbdc07db16af5ecacef32e4b238f80fca7f6321d80d5454ca8ba899cf3db4bdb

def outputKeys : Digest := .ofNat 0x78850a5ab36238b076dd99fd258c70d523168704247988a94caa8c9ccd056b8d

def outputValues : Digest := .ofNat 0xc338e73fce68e435368e37136375fcb044daf142feef2bf4476c53875eda0979

def outputs : Digest := .ofNat 0x2411c061ff5f39e888f77bdbe8bd168745bf266a90c020bda166c35663bc2549

/-- The witness UTXO, the txid and the index of an input. -/
def inputValues (amount : Nat) (script : Bytes) (index : UInt8) : List Bytes :=
  [leBytes 8 amount ++ UInt8.ofNat script.length :: script,
    beBytes 32 0x456edc21a3c224dbbbf4ef97292d7acfd36b241c52aaf55c6f3b7ed59712df77, [index, 0, 0, 0]]

def otherScript : Bytes := beBytes 22 0x0014aee6db1a7c349c885fe9e06b4c9f0d6d3e69b521

/-- The trees of two PSBTs: the second input is of 100000 in one, of `2^64 - 1` in the other. -/
def payments : List (Digest × List Bytes) :=
  [(globalKeys, [[0x02]]), (globalValues, [[0x02, 0x00, 0x00, 0x00]]), (inputKeys, [[0x01], [0x0e], [0x0f]]),
    (firstValues, inputValues 200001 otherScript 0), (smallValues, inputValues 100000 otherScript 1),
    (largeValues, inputValues 0xffffffffffffffff otherScript 1),
    (smallInputs, [mapElement 3 inputKeys firstValues, mapElement 3 inputKeys smallValues]),
    (largeInputs, [mapElement 3 inputKeys firstValues, mapElement 3 inputKeys largeValues]),
    (outputKeys, [[0x03], [0x04]]), (outputValues, [leBytes 8 900, recipient]),
    (outputs, [mapElement 2 outputKeys outputValues])]

def request (nInputs : UInt8) (inputs policyId : Digest) : Bytes :=
  mapElement 1 globalKeys globalValues ++ nInputs :: inputs.bytes ++ 1 :: outputs.bytes ++ policyId.bytes ++
    List.replicate 32 0

def shownFee (fee : UInt64) : Event :=
  .shown (.validateTransactionSimplified (text "Vault") 900 (some address) ⟨false, false, true⟩ fee)
    ⟨false, false, true⟩ false

def payment (inputs : Digest) : List Event :=
  runTrace (device crypto payments) 1 (request 2 inputs policyId) [false]

def paymentTrace (inputs : List UInt64) (fee : UInt64) : List Event :=
  .policyRead (text "Vault") template ::
    (inputs.zipIdx.flatMap fun (amount, i) => [.inputAmount amount, .classified i false]) ++
    [.outputAmount 900, .outputRead ⟨900, .ok recipient, false, 0⟩,
      .outputsHashed (leBytes 8 900 ++ 22 :: recipient), shownFee fee, .statusWord 0x6985 none]

theorem payment_eq : payment smallInputs = paymentTrace [200001, 100000] 299101 ∧
    payment largeInputs = paymentTrace [200001, 0xffffffffffffffff] 199100 :=
  ⟨by decide +kernel, by decide +kernel⟩

end Vault

open Vault in
theorem shownFee_exact_smallInputs : shownFee 299101 ∈ payment smallInputs ∧
    FeeExact (total (inputAmounts (payment smallInputs))) (total (outputAmounts (payment smallInputs)))
      299101 true := by
  have hshown : shownFee 299101 ∈ payment smallInputs := by
    rw [payment_eq.1]
    simp [paymentTrace]
  refine ⟨hshown, (shownFee_exact_iff _ _ _ _ _ _ _ 299101 hshown rfl).2.mpr ?_⟩
  change SumsFit (total (inputAmounts (payment smallInputs))) (total (outputAmounts (payment smallInputs)))
  rw [payment_eq.1]
  exact sumsFit_of_lt (by decide +kernel) (by decide +kernel) (by decide +kernel)

open Vault in
/-- With an input of `2^64 - 1` more, the fee on the screen is smaller by one. -/
theorem not_shownFee_exact : shownFee 199100 ∈ payment largeInputs ∧
    ¬FeeExact (total (inputAmounts (payment largeInputs))) (total (outputAmounts (payment largeInputs)))
      199100 true := by
  rw [payment_eq.2]
  unfold FeeExact
  decide +kernel

end LedgerBabylon
