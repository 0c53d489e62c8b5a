import LedgerBabylon.Handler.Clients
import LedgerBabylon.Handler.RegisterWallet
import LedgerBabylon.Handler.SignPsbt.Display
import LedgerBabylon.Handler.SignPsbt.Sighash

/-!
# Failed fetches

The functions that fetch a Merkle leaf or a value of a map return a length, or one of several negative
codes. The callers that read output scripts and key infos compare the result with -1 only.
-/

namespace LedgerBabylon

open Exec

variable {map : MerkleizedMapCommitment} {code : Int} {index : Nat} {g : GlobalState}

/-- The callers that read output scripts and key infos, `preprocess_outputs` from where it has the map
and the amount of an output. -/
inductive FetchCaller where
  | hashOutputN (g : GlobalState) (index : Nat)
  | preprocessOutputs (g : GlobalState) (map : MerkleizedMapCommitment) (inOut : InOutInfo) (amount : UInt64)
  | getOutputScriptAndAmount (g : GlobalState) (index : Nat)
  | getExtendedPubkeyFromClient (wdi : WalletDerivationInfo) (keyIndex : Nat)
  | getPubkeyFromMerkleTree (header : PolicyMapWalletHeader) (index : Nat)

variable {σ : Type} (dev : Device σ)

variable {s s' s1 s2 : Session σ} {nKeys : Nat} {amount : Bytes} {inOut : InOutInfo}

def ScriptFetchFails (map : MerkleizedMapCommitment) (s : Session σ) (code : Int) (s' : Session σ) : Prop :=
  ∃ e, dev.env.mapValue map [PSBT_OUT_SCRIPT] maxOutputScriptPubKeyLen s.env = .error (.ret code) e ∧
    s' = { s with env := e }

def KeyInfoFetchFails (root : Digest) (nKeys index : Nat) (s : Session σ) (code : Int)
    (s' : Session σ) : Prop :=
  ∃ e, dev.env.leafElement root (UInt32.ofNat nKeys) (UInt32.ofNat index) maxPolicyKeyInfoLen s.env =
    .error (.ret code) e ∧ s' = { s with env := e }

/-- In a run of the caller from `s`, the fetch of the script or the key info fails with the code and
leaves the session `s'`. -/
inductive FetchFails : FetchCaller → Session σ → Int → Session σ → Prop
  | hashOutputN {g : GlobalState} {index : Nat} {map : MerkleizedMapCommitment} {amount : Bytes}
      {s s1 s2 s' : Session σ} {code : Int} (hindex : index < g.nOutputs)
      (hmap : callGetMerkleizedMap dev g.outputsRoot g.nOutputs index s = .ok (some map) s1)
      (hamount : fetchLen dev map PSBT_OUT_AMOUNT 8 s1 = .ok (some amount) s2)
      (hfails : ScriptFetchFails dev map s2 code s') :
      FetchFails (.hashOutputN g index) s code s'
  | preprocessOutputs {g : GlobalState} {map : MerkleizedMapCommitment} {inOut : InOutInfo}
      {amount : UInt64} {s s' : Session σ} {code : Int} (hfails : ScriptFetchFails dev map s code s') :
      FetchFails (.preprocessOutputs g map inOut amount) s code s'
  | getOutputScriptAndAmount {g : GlobalState} {index : Nat} {map : MerkleizedMapCommitment}
      {amount : Bytes} {s s1 s2 s' : Session σ} {code : Int}
      (hmap : callGetMerkleizedMap dev g.outputsRoot g.nOutputs index s = .ok (some map) s1)
      (hamount : fetchLen dev map PSBT_OUT_AMOUNT 8 s1 = .ok (some amount) s2)
      (hfails : ScriptFetchFails dev map s2 code s') :
      FetchFails (.getOutputScriptAndAmount g index) s code s'
  | getExtendedPubkeyFromClient {wdi : WalletDerivationInfo} {keyIndex : Nat} {s s' : Session σ}
      {code : Int} (hfails : KeyInfoFetchFails dev wdi.keysMerkleRoot wdi.nKeys keyIndex s code s') :
      FetchFails (.getExtendedPubkeyFromClient wdi keyIndex) s code s'
  | getPubkeyFromMerkleTree {header : PolicyMapWalletHeader} {index : Nat} {s s' : Session σ}
      {code : Int} (hfails : KeyInfoFetchFails dev header.keysInfoMerkleRoot header.nKeys index s code s') :
      FetchFails (.getPubkeyFromMerkleTree header index) s code s'

/-- The caller reports failure in the session `s'`: it returns its error, or ends the command with its
status word. -/
def ReportsFailure (s s' : Session σ) : FetchCaller → Prop
  | .hashOutputN g index => hashOutputN dev g index s = .ok none s'
  | .preprocessOutputs g map inOut amount =>
    readOutput dev g map inOut amount s = .error (.status 0xD004 none) s'
  | .getOutputScriptAndAmount g index =>
    getOutputScriptAndAmount dev g index s = .error (.status SW_INCORRECT_DATA none) s'
  | .getExtendedPubkeyFromClient wdi keyIndex =>
    getExtendedPubkeyFromClient dev wdi keyIndex s = .error (.ret (-1)) s'
  | .getPubkeyFromMerkleTree header index =>
    getPubkeyFromMerkleTree dev header index s = .error (.ret (-1)) s'

variable {dev}

theorem readOutputScript_of_fails (h : ScriptFetchFails dev map s code s') (sw : Nat) :
    readOutputScript dev map sw s =
      if code = -1 then .error (.status sw none) s' else .ok (.error code) s' := by
  obtain ⟨e, hfetch, rfl⟩ := h
  unfold readOutputScript
  rw [bind_of_ok (call_of_error hfetch)]
  dsimp only
  split <;> rfl

theorem fetchKeyInfo_of_fails {root : Digest}
    (h : KeyInfoFetchFails dev root nKeys index s code s') (version : Nat) :
    fetchKeyInfo dev version root nKeys index s =
      if code = -1 then .error (.ret (-1)) s'
      else .error .undefinedBehaviour { s' with uses := s'.uses ++ [.keyInfo (errorAsLength code)] } := by
  obtain ⟨e, hfetch, rfl⟩ := h
  unfold fetchKeyInfo
  rw [bind_of_ok (askAttempt_of_error hfetch)]
  dsimp only
  split <;> rfl

section

variable (hmap : callGetMerkleizedMap dev g.outputsRoot g.nOutputs index s = .ok (some map) s1)
  (hamount : fetchLen dev map PSBT_OUT_AMOUNT 8 s1 = .ok (some amount) s2)
  (hfails : ScriptFetchFails dev map s2 code s')

include hmap hamount hfails

theorem hashOutputN_of_fails (hindex : index < g.nOutputs) : hashOutputN dev g index s =
      if code = -1 then .ok none s'
      else .error (.fault .undefinedBehaviour)
        { s' with uses := s'.uses ++ [.outputScript (errorAsLength code)] } := by
  obtain ⟨e, hfetch, rfl⟩ := hfails
  unfold hashOutputN
  rw [if_neg (by omega), bind_of_ok hmap]
  dsimp only
  rw [bind_of_ok hamount]
  dsimp only
  rw [bind_of_ok (call_of_error hfetch)]
  by_cases hcode : code = -1
  · subst hcode
    rfl
  · rw [if_neg hcode]
    generalize hr : (Except.error code : Except Int Bytes) = r
    split
    · cases hr
      exact absurd rfl hcode
    · subst hr
      rfl

theorem getOutputScriptAndAmount_of_fails : getOutputScriptAndAmount dev g index s =
      if code = -1 then .error (.status SW_INCORRECT_DATA none) s'
      else .error (.fault .undefinedBehaviour) s' := by
  have hsome : someOr SW_INCORRECT_DATA (some map) s1 = .ok map s1 := rfl
  have hexact : fetchExact dev map PSBT_OUT_AMOUNT 8 SW_INCORRECT_DATA s1 = .ok amount s2 := by
    unfold fetchExact
    rw [bind_of_ok hamount]
    rfl
  have hscript := readOutputScript_of_fails hfails SW_INCORRECT_DATA
  unfold getOutputScriptAndAmount
  rw [bind_of_ok hmap, bind_of_ok hsome, bind_of_ok hexact]
  by_cases hcode : code = -1
  · rw [if_pos hcode] at hscript ⊢
    exact bind_of_error hscript
  · rw [if_neg hcode] at hscript ⊢
    rw [bind_of_ok hscript]
    rfl

end

theorem isInOutInternal_error {isInput : Bool} {failure : Failure}
    (h : isInOutInternal dev g inOut isInput s = .error failure s') : ∃ f, failure = .fault f := by
  unfold isInOutInternal at h
  split at h
  · cases h
  · split at h
    · cases h
    · exact query_error h

theorem readOutput_of_fails {amount : UInt64} (hfails : ScriptFetchFails dev map s code s') :
    readOutput dev g map inOut amount s = .error (.status 0xD004 none) s' ↔ code = -1 := by
  have hscript := readOutputScript_of_fails hfails 0xD004
  unfold readOutput
  by_cases hcode : code = -1
  · rw [if_pos hcode] at hscript
    rw [bind_of_error hscript]
    simp [hcode]
  · rw [if_neg hcode] at hscript
    rw [bind_of_ok hscript]
    refine iff_of_false (fun h => ?_) hcode
    -- the failures that follow have another status word or are faults
    rcases bind_error_iff.mp h with h | ⟨answer, s1, -, h⟩
    · obtain ⟨f, hf⟩ := isInOutInternal_error h
      cases hf
    · rcases bind_error_iff.mp h with h | ⟨isInternal, s2, -, h⟩
      · cases answer <;> cases h
      · cases h

theorem fetchKeyInfo_bind_of_fails {α : Type} {root : Digest} (hfails : KeyInfoFetchFails dev root nKeys index s code s') (version : Nat)
    (f : Bool × PolicyMapKeyInfo → Query σ α) :
    (fetchKeyInfo dev version root nKeys index >>= f) s = .error (.ret (-1)) s' ↔ code = -1 := by
  have hfetch := fetchKeyInfo_of_fails hfails version
  by_cases hcode : code = -1
  · rw [if_pos hcode] at hfetch
    simp [bind_of_error hfetch, hcode]
  · rw [if_neg hcode] at hfetch
    simp [bind_of_error hfetch, hcode]

/-- A caller whose fetch fails reports that, without using the code for anything, exactly when the
code is -1. -/
theorem fetchCaller_reports_iff {caller : FetchCaller} {s s' : Session σ} {code : Int}
    (h : FetchFails dev caller s code s') : ReportsFailure dev s s' caller ↔ code = -1 := by
  cases h with
  | hashOutputN hindex hmap hamount hfails =>
    rw [ReportsFailure, hashOutputN_of_fails hmap hamount hfails hindex]
    by_cases hcode : code = -1 <;> simp [hcode]
  | preprocessOutputs hfails => exact readOutput_of_fails hfails
  | getOutputScriptAndAmount hmap hamount hfails =>
    rw [ReportsFailure, getOutputScriptAndAmount_of_fails hmap hamount hfails]
    by_cases hcode : code = -1 <;> simp [hcode]
  | getExtendedPubkeyFromClient hfails => exact fetchKeyInfo_bind_of_fails hfails _ _
  | getPubkeyFromMerkleTree hfails => exact fetchKeyInfo_bind_of_fails hfails _ _

namespace OneKey

def root : Digest := .ofNat 0x0102030405060708090a0b0c0d0e0f101112131415161718191a1b1c1d1e1f20

def crypto : Crypto where
  pubkeyVersion := 0x0488B21E
  sha256 _ := root
  ripemd160 _ := []
  hmacSha512 _ _ := []
  addPoint _ _ := none
  addPointXonly _ _ := none
  pubkeyAtPath _ := none
  privkeyAtPath _ := none
  pubkeyOf _ := none
  ecdsaSign _ _ := none
  schnorrSign _ _ := none

def device : Device Outside where
  crypto
  env := Environment.wire crypto.sha256 ⟨0, 0, fun _ => 0⟩ [] fun _ => pure none
  nbgl := true
  uninitialised _ := 0
  overread _ := 0
  formatScript _ := none
  musigKeyAgg _ := []
  musigNonceAgg _ := (false, ⟨[], []⟩)
  musigNonceGen _ _ _ := none
  musigSign _ _ _ := none
  walletHmac _ := []

def caller : FetchCaller := .getExtendedPubkeyFromClient ⟨2, root, 1, false, 0, false⟩ 0

def session (answers : List Bytes) : Session Outside := ⟨⟨.idle (answers.map continueApdu), []⟩, .empty, []⟩

def noPreimage : Session Outside := session [root.bytes ++ [0, 0], []]

def noProof : Session Outside := session [[]]

theorem noPreimage_fails :
    fault? (device.env.leafElement root 1 0 maxPolicyKeyInfoLen) noPreimage.env = some (.ret (-2)) := by
  decide +kernel

theorem noPreimage_caller :
    fault? (getExtendedPubkeyFromClient device ⟨2, root, 1, false, 0, false⟩ 0) noPreimage =
      some .undefinedBehaviour := by decide +kernel

theorem noProof_fails :
    fault? (device.env.leafElement root 1 0 maxPolicyKeyInfoLen) noProof.env = some (.ret (-1)) := by
  decide +kernel

end OneKey

open OneKey in
theorem fetchCaller_reports_noProof :
    ∃ s', FetchFails device caller noProof (-1) s' ∧ ReportsFailure device noProof s' caller := by
  have hfails : FetchFails device caller noProof (-1) _ :=
    .getExtendedPubkeyFromClient ⟨_, error_of_fault? noProof_fails, rfl⟩
  exact ⟨_, hfails, (fetchCaller_reports_iff hfails).mpr rfl⟩

open OneKey in
/-- With the error -2, the caller goes on with a key info of `2^32 - 2` bytes. -/
theorem not_fetchCaller_reports :
    ∃ s', FetchFails device caller noPreimage (-2) s' ∧ ¬ReportsFailure device noPreimage s' caller := by
  refine ⟨_, .getExtendedPubkeyFromClient ⟨_, error_of_fault? noPreimage_fails, rfl⟩, fun h => ?_⟩
  have hcaller := error_of_fault? noPreimage_caller
  rw [show getExtendedPubkeyFromClient device _ 0 noPreimage = _ from h] at hcaller
  cases hcaller

end LedgerBabylon
