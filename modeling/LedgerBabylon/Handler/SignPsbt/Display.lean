import LedgerBabylon.Handler.SignPsbt.Preprocess

/-!
# What the user is shown

Which screens appear depends on the number of external outputs and on the kind of device. With few of
them, one screen stands for the whole transaction; the name of the policy, the finality provider's key
and the outputs are only gone through in the longer flow.
-/

namespace LedgerBabylon

open Endian Exec

variable {σ : Type} (dev : Device σ) (g : GlobalState)

def displayOutput (externalOutputsCount : Nat) (script : Bytes) (amount : UInt64) : Sign σ Unit := do
  let description ← fetch dev (someOr SW_NOT_SUPPORTED (dev.formatScript script))
  let st ← getSt
  confirmOrDeny dev (.validateOutput externalOutputsCount st.nExternalOutputs description amount)

/-- `get_output_script_and_amount`; a caller that finds it failed sends a second status word. An error
code is passed on as a length to the formatting of the script. -/
def getOutputScriptAndAmount (index : Nat) : Fetch σ (Bytes × UInt64) := do
  let map ← callGetMerkleizedMap dev g.outputsRoot g.nOutputs index
  let map ← someOr SW_INCORRECT_DATA map
  let raw ← fetchExact dev map PSBT_OUT_AMOUNT 8 SW_INCORRECT_DATA
  match ← readOutputScript dev map SW_INCORRECT_DATA with
  | .error _ => undefinedBehaviour
  | .ok script => return (script, UInt64.ofNat (leNat raw))

def alsoSend {α : Type} (sw : Nat) (x : Sign σ α) : Sign σ α := fun w =>
  match x w with
  | .error .stopped w' => abort dev (.status sw none) w'
  | r => r

def externalOutput (index externalOutputsCount : Nat) : Sign σ (Bytes × UInt64) := do
  let st ← getSt
  match st.outputs.cached[externalOutputsCount]? with
  | some output => return output
  | none => alsoSend dev SW_INCORRECT_DATA (fetch dev (getOutputScriptAndAmount dev g index))

def displayExternalOutputsLoop : List Bool → Nat → Nat → Sign σ Unit
  | [], _, _ => return ()
  | true :: internal, index, count => displayExternalOutputsLoop internal (index + 1) count
  | false :: internal, index, count => do
    let (script, amount) ← externalOutput dev g index count
    displayOutput dev (count + 1) script amount
    displayExternalOutputsLoop internal (index + 1) (count + 1)

def displayExternalOutputs (internalOutputs : List Bool) : Sign σ Unit :=
  displayExternalOutputsLoop dev g internalOutputs 0 0

def displayFinalityPk : Sign σ Unit := do
  let st ← getSt
  match st.psbtFinalityPk with
  | none => return ()
  | some pk => confirmOrDeny dev (.confirmFinalityPk pk)

def confirmIf (cond : Bool) (screen : Screen) : Sign σ Unit :=
  if cond then confirmOrDeny dev screen else pure ()

def displayWarnings : Sign σ Unit := do
  let st ← getSt
  confirmIf dev st.warnings.missingNonwitnessutxo .warnUnverifiedSegwitInputs
  confirmIf dev st.warnings.nonDefaultSighash .warnNondefaultSighash

def SignPsbtState.fee (st : SignPsbtState) : UInt64 := st.inputsTotalAmount - st.outputs.totalAmount

def SignPsbtState.isHighFee (st : SignPsbtState) : Bool :=
  st.inputsTotalAmount ≤ 10 * st.fee && 100000 < st.inputsTotalAmount

def displaySimplified (st : SignPsbtState) : Sign σ Unit :=
  if st.nExternalOutputs = 0 then
    confirmOrDeny dev (.validateTransactionSimplified g.header.name 0 none st.warnings st.fee)
  else do
    let (script, amount) := st.outputs.cached.headD ([], 0)
    let description ← fetch dev (someOr SW_NOT_SUPPORTED (dev.formatScript script))
    confirmOrDeny dev
      (.validateTransactionSimplified g.header.name amount (some description) st.warnings st.fee)

def displaySelfTransfer (st : SignPsbtState) : Sign σ Unit := do
  displayWarnings dev
  confirmIf dev st.warnings.highFee .warnHighFee
  confirmOrDeny dev (.validateTransaction st.fee true)

/-- The name of the policy has to be one of an action, and the user has to accept it. -/
def authorizeWalletSpend : Sign σ Unit := do
  fetch dev (checkOr SW_DENY (0 ≤ (getActionStep g.header.name).step))
  confirmOrDeny dev (.authorizeWalletSpend g.header.name)

def displayOutputsOfAction (internalOutputs : List Bool) : Sign σ Unit :=
  if 2 < (getActionStep g.header.name).step then displayExternalOutputs dev g internalOutputs
  else pure ()

def displayFull (st : SignPsbtState) (internalOutputs : List Bool) : Sign σ Unit := do
  confirmIf dev dev.nbgl .transactionPrompt
  authorizeWalletSpend dev g
  displayWarnings dev
  displayFinalityPk dev
  displayOutputsOfAction dev g internalOutputs
  confirmIf dev st.warnings.highFee .warnHighFee
  confirmOrDeny dev (.validateTransaction st.fee false)

def displayTransaction (internalOutputs : List Bool) : Sign σ Unit := do
  modifySt fun st => { st with warnings := { st.warnings with highFee := st.isHighFee } }
  let st ← getSt
  if dev.nbgl ∧ (st.nExternalOutputs = 0 ∨ st.nExternalOutputs = 1) then displaySimplified dev g st
  else if !dev.nbgl ∧ st.nExternalOutputs = 0 then displaySelfTransfer dev st
  else displayFull dev g st internalOutputs

end LedgerBabylon
