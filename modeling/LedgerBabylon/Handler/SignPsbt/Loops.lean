import LedgerBabylon.Handler.SignPsbt.Run

/-!
# Successful loops

What the loops over the inputs and outputs have done when they succeed: the parts of each round, and
the rule to carry an invariant through all rounds.
-/

namespace LedgerBabylon

open Exec

variable {index : Nat} {internal internal' : List Bool}

variable {σ : Type} {dev : Device σ} {g : GlobalState} {hashes : TxHashes}

variable {n : Nat} {w w' : World σ} {u : Unit} {s s' : Session σ}

theorem forIndices_ok {J : Nat → World σ → Prop} {body : Nat → Sign σ Unit}
    (h : forIndices body n index w = .ok u w')
    (hbody : ∀ i v v', index ≤ i → i < index + n → body i v = .ok () v' → J i v → J (i + 1) v')
    (hw : J index w) : J (index + n) w' := by
  induction n generalizing index w with
  | zero =>
    obtain ⟨-, rfl⟩ := pure_ok h
    exact hw
  | succ n ih =>
    obtain ⟨_, w1, hfirst, h⟩ := bind_ok h
    have hw1 := hbody index w w1 (by omega) (by omega) hfirst hw
    rw [Nat.add_comm n 1, ← Nat.add_assoc]
    exact ih h (fun i v v' hi hi' => hbody i v v' (by omega) (by omega)) hw1

theorem KeysOk.read {α : Type} {P : α → Prop} {x : Fetch σ α} {a : α}
    (hw : KeysOk dev g w) (h : SignReads dev g P x) (hx : x w.session = .ok a s) :
    KeysOk dev g { w with session := s } := ⟨hw.1, (h.ok hw.2 hx).2.1⟩

theorem fetchWalletPolicy_ok {walletId : Digest} {wallet : WalletPolicy}
    (h : fetchWalletPolicy dev walletId s = .ok wallet s') :
    ∃ raw s1, readAndParseWalletPolicy dev raw s1 = .ok wallet s' := by
  obtain ⟨answer, s1, -, h⟩ := bind_ok h
  obtain ⟨⟨len, raw⟩, s2, -, h⟩ := bind_ok h
  obtain ⟨answer, s3, hquery, h⟩ := bind_ok h
  obtain ⟨rfl, rfl⟩ := okOr_ok_iff.mp h
  rcases query_ok_iff.mp hquery with ⟨wallet', hwallet, hread⟩ | ⟨code, hcode, -⟩
  · cases hwallet
    exact ⟨_, s2, hread⟩
  · cases hcode

/-- The wallet policy that a run begins with, as it is written. -/
def startPolicy (dev : Device σ) (raw : Bytes) (env : σ) : Option WalletPolicy := do
  let req ← (readSignPsbtRequest raw).toOption
  returned? (readGlobalMap dev req.globalMap >>= fun _ => fetchWalletPolicy dev req.walletId)
    (World.initial env).session

/-- A run works with the policy as it is read, which is the written one where no musig expression comes
before another key of its node. -/
theorem Initialised.startPolicy_eq {protocolVersion : Nat} {raw : Bytes} {env : σ}
    (i : Initialised dev protocolVersion raw env) :
    ∃ wallet, startPolicy dev raw env = some wallet ∧ i.g.header = wallet.header ∧
      i.g.policy = dev.asRead wallet.policy ∧
      (wallet.policy.MusigLast → i.g.policy = wallet.policy ∧ wallet.policy.Numbered) := by
  obtain ⟨fields, wallet, fingerprint, s1, s2, s3, hfields, hwallet, -, hg, -⟩ := initGlobalState_ok i.init_ok
  obtain ⟨raw', s, hread⟩ := fetchWalletPolicy_ok hwallet
  have hpolicy : i.g.policy = dev.asRead wallet.policy := congrArg GlobalState.policy hg
  refine ⟨wallet, ?_, congrArg GlobalState.header hg, hpolicy, fun hlast => ?_⟩
  · have hstart : (readGlobalMap dev i.req.globalMap >>= fun _ => fetchWalletPolicy dev i.req.walletId)
        (World.initial env).session = .ok wallet s2 :=
      bind_ok_iff.mpr ⟨fields, s1, hfields, hwallet⟩
    simp [startPolicy, i.request_ok, Except.toOption, returned?, hstart]
  · rw [hpolicy, readAndParseWalletPolicy_asRead hread hlast]
    exact ⟨rfl, readAndParseWalletPolicy_numbered hread⟩

inductive InputProcessed (dev : Device σ) (g : GlobalState) (index : Nat) (w w' : World σ) : Prop
  | mk {map : MerkleizedMapCommitment} {input input1 input2 : InputInfo} {isInternal : Bool}
      {w1 w2 w3 : World σ} {s1 s3 : Session σ}
      (hread : readInput dev g index w = .ok (some (map, input)) w1)
      (hcheck : checkInput input w1.session = .ok () s1)
      (hnonwitness : checkNonWitnessUtxo dev map input { w1 with session := s1 } = .ok input1 w2)
      (hwitness : checkWitnessUtxo dev map input1 w2 = .ok input2 w3)
      (hinternal : isInOutInternal dev g input2.inOut true w3.session = .ok (.ok isInternal) s3)
      (hfinish : finishInput dev g map index input2 isInternal { w3 with session := s3 } = .ok () w')

theorem preprocessInput_ok
    (h : preprocessInput dev g index w = .ok u w') : InputProcessed dev g index w w' := by
  obtain ⟨read, w1, hread, h⟩ := bind_ok h
  obtain ⟨⟨map, input⟩, w2, hsome, h⟩ := bind_ok h
  obtain ⟨rfl, rfl⟩ := fetch_someOr_ok_iff.mp hsome
  obtain ⟨_, w3, hcheck, h⟩ := bind_ok h
  obtain ⟨s3, hcheck', rfl⟩ := fetch_ok_iff.mp hcheck
  obtain ⟨input1, w4, hnonwitness, h⟩ := bind_ok h
  obtain ⟨input2, w5, hwitness, h⟩ := bind_ok h
  obtain ⟨answer, w6, hinternal, h⟩ := bind_ok h
  obtain ⟨s6, hinternal', rfl⟩ := fetch_ok_iff.mp hinternal
  obtain ⟨isInternal, w7, hok, h⟩ := bind_ok h
  obtain ⟨rfl, rfl⟩ := fetch_okOr_ok_iff.mp hok
  exact ⟨hread, hcheck', hnonwitness, hwitness, hinternal', h⟩

def World.noteOutputRead (w : World σ) (output : OutputRead) (s : Session σ) : World σ :=
  { w with
    session := s
    st := { w.st with
      outputs := { w.st.outputs with totalAmount := w.st.outputs.totalAmount + output.amount } }
    trace := w.trace ++ [.outputAmount output.amount] ++ [.outputRead output] }

inductive OutputProcessed (dev : Device σ) (g : GlobalState) (index : Nat) (internal : List Bool)
    (w : World σ) (internal' : List Bool) (w' : World σ) : Prop
  | mk {map : MerkleizedMapCommitment} {inOut : InOutInfo} {raw : Bytes} {output : OutputRead}
      {w1 : World σ} {s1 s2 s3 : Session σ}
      (hread : callGetMerkleizedMapWithCallback dev g.outputsRoot g.nOutputs index
        (outputKeysCallback dev) .zero w = .ok (some (map, inOut)) w1)
      (hamount : fetchExact dev map PSBT_OUT_AMOUNT 8 0xD003 w1.session = .ok raw s1)
      (houtput : readOutput dev g map inOut (UInt64.ofNat (Endian.leNat raw)) s1 = .ok output s2)
      (hset : setInternalOutput index output.isInternal internal s2 = .ok internal' s3)
      (hnote : noteOutput dev output (w1.noteOutputRead output s3) = .ok () w')

theorem readOutput_amount {map : MerkleizedMapCommitment} {inOut : InOutInfo} {amount : UInt64}
    {output : OutputRead} (h : readOutput dev g map inOut amount s = .ok output s') :
    output.amount = amount := by
  obtain ⟨script, s1, -, h⟩ := bind_ok h
  obtain ⟨answer, s2, -, h⟩ := bind_ok h
  obtain ⟨isInternal, s3, -, h⟩ := bind_ok h
  obtain ⟨rfl, -⟩ := pure_ok h
  rfl

theorem setInternalOutput_ok {isInternal : Bool}
    (h : setInternalOutput index isInternal internal s = .ok internal' s') :
    index < maxNOutputsCanSign ∧ internal' = internal ++ [isInternal] ∧ s'.cache = s.cache := by
  obtain ⟨_, s1, huses, h⟩ := bind_ok h
  cases huses
  split at h
  · next hindex =>
      obtain ⟨rfl, rfl⟩ := pure_ok h
      exact ⟨hindex, rfl, rfl⟩
  · simp at h

theorem preprocessOutput_ok (h : preprocessOutput dev g index internal w = .ok internal' w') :
    OutputProcessed dev g index internal w internal' w' := by
  obtain ⟨read, w1, hread, h⟩ := bind_ok h
  obtain ⟨⟨map, inOut⟩, w2, hsome, h⟩ := bind_ok h
  obtain ⟨rfl, rfl⟩ := fetch_someOr_ok_iff.mp hsome
  obtain ⟨_, w3, hcheck, h⟩ := bind_ok h
  obtain ⟨-, rfl⟩ := fetch_checkOr_ok_iff.mp hcheck
  obtain ⟨raw, w4, hamount, h⟩ := bind_ok h
  obtain ⟨s4, hamount', rfl⟩ := fetch_ok_iff.mp hamount
  obtain ⟨_, w5, hadd, h⟩ := bind_ok h
  cases hadd
  obtain ⟨output, w6, houtput, h⟩ := bind_ok h
  obtain ⟨s6, houtput', rfl⟩ := fetch_ok_iff.mp houtput
  obtain ⟨_, w7, hrecord, h⟩ := bind_ok h
  cases hrecord
  obtain ⟨set, w8, hset, h⟩ := bind_ok h
  obtain ⟨s8, hset', rfl⟩ := fetch_ok_iff.mp hset
  obtain ⟨_, w9, hnote, h⟩ := bind_ok h
  obtain ⟨rfl, rfl⟩ := pure_ok h
  have hvalue := readOutput_amount houtput'
  rw [← hvalue] at hnote
  exact ⟨hread, hamount', houtput', hset', hnote⟩

theorem preprocessOutputsLoop_ok {J : Nat → List Bool → World σ → Prop}
    (h : preprocessOutputsLoop dev g n index internal w = .ok internal' w')
    (hbody : ∀ i b v b' v', index ≤ i → i < index + n → preprocessOutput dev g i b v = .ok b' v' →
      J i b v → J (i + 1) b' v')
    (hw : J index internal w) : J (index + n) internal' w' := by
  induction n generalizing index internal w with
  | zero =>
    obtain ⟨rfl, rfl⟩ := pure_ok h
    exact hw
  | succ n ih =>
    obtain ⟨internal1, w1, hfirst, h⟩ := bind_ok h
    have hw1 := hbody index internal w _ w1 (by omega) (by omega) hfirst hw
    rw [Nat.add_comm n 1, ← Nat.add_assoc]
    exact ih h (fun i b v b' v' hi hi' => hbody i b v b' v' (by omega) (by omega)) hw1

theorem preprocessOutputs_ok (h : preprocessOutputs dev g w = .ok internal w') :
    ∃ v s, preprocessOutputsLoop dev g g.nOutputs 0 []
        { w with st := { w.st with outputs := ⟨0, 0, 0, []⟩, nExternalOutputs := 0 } } = .ok internal v ∧
      v.st.outputs.totalAmount ≤ v.st.inputsTotalAmount ∧ v.st.outputs.nChange ≤ 10 ∧
      w' = { v with session := s } := by
  obtain ⟨_, w1, hreset, h⟩ := bind_ok h
  cases hreset
  obtain ⟨internal', v, hloop, h⟩ := bind_ok h
  obtain ⟨st, w3, hst, h⟩ := bind_ok h
  cases hst
  obtain ⟨_, w4, hcheck, h⟩ := bind_ok h
  obtain ⟨s, hcheck', rfl⟩ := fetch_ok_iff.mp hcheck
  obtain ⟨rfl, rfl⟩ := pure_ok h
  obtain ⟨_, s1, hfee, hchange⟩ := bind_ok hcheck'
  obtain ⟨hfee, rfl⟩ := checkOr_ok_iff.mp hfee
  refine ⟨v, s, hloop, by simpa using hfee, ?_, rfl⟩
  by_contra hlarge
  rw [if_pos (by omega)] at hchange
  simp at hchange

end LedgerBabylon
