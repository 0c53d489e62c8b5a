import LedgerBabylon.Handler.SignPsbt.Sign
import LedgerBabylon.Handler.CommittedScript
import LedgerBabylon.Handler.EnvironmentInvariants

/-!
# The steps of a signing run

Everything that a signing run does to the device and its trace is one of a few kinds of steps. What a
step of a kind can do, and under which condition, is said here once; every part of the flow is then
shown to take steps of certain kinds only.
-/

namespace LedgerBabylon

open Exec

variable {σ τ α : Type} (dev : Device σ) (g : GlobalState)

abbrev PolicyKeyInfo (info : Bytes) : Prop :=
  KeyInfoAnswered dev g.header.keysInfoMerkleRoot g.header.nKeys info

def KeyOrigin (derivation : List UInt32) : Prop :=
  derivation = [] ∨ ∃ info ok keyInfo, PolicyKeyInfo dev g info ∧
    parsePolicyMapKeyInfo dev.crypto.sha256 g.header.version info = some (ok, keyInfo) ∧
    derivation = keyInfo.masterKeyDerivation

/-- The derivation steps of a key expression are those of a key info, and in a taproot policy its
tapleaf is the one it stands in. -/
structure KeyOk (key : KeyexprInfo) : Prop where
  origin : KeyOrigin dev g key.keyDerivation
  leafKeys : ∀ leaf ∈ key.tapleaf, ∀ keyExpr ∈ leaf.keys, keyExpr ∈ g.policy.keys
  leaf : ∀ internalKey tree, g.policy = .tr internalKey tree →
    g.policy.keyexprs[key.index]? = some (key.keyExpr, key.tapleaf) ∧
    key.isTapscript = key.tapleaf.isSome

abbrev PolicyCache : SignPsbtCache → Prop := dev.CacheCoherent g.header g.policy

def KeysOk (w : World σ) : Prop :=
  (∀ key ∈ w.st.internalKeyExpressions, KeyOk dev g key) ∧ PolicyCache dev g w.session.cache

inductive SignUse : ArrayUse → Prop
  | keyInfo {use : ArrayUse}
      (h : KeyInfoUse dev g.header.version g.header.keysInfoMerkleRoot g.header.nKeys use) : SignUse use
  | internalOutput {position : Nat} (h : position < g.nOutputs) : SignUse (.internalOutput position)
  | signStep {key : KeyexprInfo} {position : Nat} (hkey : KeyOk dev g key)
      (h : position < key.keyDerivation.length + 2) : SignUse (.signStep position)
  | outputScript {map : MerkleizedMapCommitment} {script : Bytes}
      (h : Answered (dev.env.mapValue map [PSBT_OUT_SCRIPT] maxOutputScriptPubKeyLen) script) :
      SignUse (.outputScript script.length)
  | outputScriptError {map : MerkleizedMapCommitment} {code : Int} (hcode : code ≠ -1)
      (h : Refused (dev.env.mapValue map [PSBT_OUT_SCRIPT] maxOutputScriptPubKeyLen) code) :
      SignUse (.outputScript (errorAsLength code))

inductive SigningResponse : Bytes → Prop
  | signature {input : Nat} (h : input < maxNInputsCanSign) (rest : Bytes) :
      SigningResponse (CCMD_YIELD :: varintWrite input ++ rest)
  | musigPartialSignature (rest : Bytes) :
      SigningResponse (CCMD_YIELD :: varintWrite yieldMusigPartialSignatureTag ++ rest)

/-- What the flow does to a session: it adds uses of arrays, and the environment changes by its
operations, with signatures as responses. -/
structure Fetched (s s' : Session σ) : Prop where
  uses : Uses (SignUse dev g) s s'
  reaches : dev.env.Reaches SigningResponse s.env s'.env

instance : Evolution (Fetched dev g) where
  refl s := ⟨Evolution.refl s, Evolution.refl s.env⟩
  trans h h' := ⟨Evolution.trans h.uses h'.uses, Evolution.trans h.reaches h'.reaches⟩

variable {dev g} in
theorem Fetched.of_ask {x : Ask σ α}
    (h : ∀ J, dev.env.Keeps J → (∀ r, SigningResponse r → Keeps J (dev.env.yield r)) → Keeps J x)
    {s : Session σ} {e : σ} (he : finalState x s.env = e) : Fetched dev g s { s with env := e } :=
  ⟨.of_eq rfl, fun J hJ hY hs => he ▸ keeps_iff.mp (h J hJ hY) s.env hs⟩

abbrev SignReads {ε : Type} (P : α → Prop) (x : EStateM ε (Session σ) α) : Prop :=
  Within (fun s => PolicyCache dev g s.cache) (Fetched dev g) P x

def LeafConfirmed (trace : List Event) (leafhash : Bytes) : Prop :=
  ∃ warnings earlier since, trace = earlier ++ .shown (.confirmLeafhash leafhash) warnings true :: since ∧
    ∀ sig, .signed sig ∉ since

inductive LeafChecked (w : World σ) (key : KeyexprInfo) : Bytes → Prop
  | keyPath (h : key.isTapscript = false) : LeafChecked w key []
  | tapscript {kind : LeafhashKind} (h : key.isTapscript)
      (hleafhash : w.st.psbtLeafhash = some (kind, key.tapleafHash))
      (hshown : kind = .display → LeafConfirmed w.trace key.tapleafHash) :
      LeafChecked w key (key.tapleafHash ++ [0x00, 0xFF, 0xFF, 0xFF, 0xFF])

inductive SignedBy (hashes : TxHashes) (w : World σ) (key : KeyexprInfo)
    (map : MerkleizedMapCommitment) (input : InputInfo) (index : Nat) : Signature → Prop
  | legacy {input' : InputInfo} {sighash : Sighash} {s s' : Session σ} (hinput : input.hasWitnessUtxo = false)
      (hsighash : legacySighash dev g key map input index s = .ok (input', sighash) s') :
      SignedBy hashes w key map input index (key.signature .ecdsa input' index sighash
        (key.keyDerivation ++ [key.keyExpr.changeStep input'.inOut.isChange, input'.inOut.addressIndex]))
  | segwitv0 {input' : InputInfo} {script : Bytes} {sighash : Sighash} {s s' t t' : Session σ}
      (hinput : input.hasWitnessUtxo) (hpolicy : getPolicySegwitVersion g.policy = 0)
      (hsegwit : segwitInput dev g map input s = .ok (input', script) s')
      (hsighash : segwitv0Sighash dev g hashes key map input' script index t = .ok sighash t') :
      SignedBy hashes w key map input index (key.signature .ecdsa input' index sighash
        (key.keyDerivation ++ [key.keyExpr.changeStep input'.inOut.isChange, input'.inOut.addressIndex]))
  | segwitv1 {internalKey : KeyExpr} {tree : Option (PolicyTree PolicyNode)} {input' : InputInfo}
      {script inputData singleOutput extension : Bytes} {kind : SignatureKind}
      {path : List UInt32} {s s' t t' u u' : Session σ}
      (hinput : input.hasWitnessUtxo) (hpolicy : g.policy = .tr internalKey tree)
      (hsegwit : segwitInput dev g map input s = .ok (input', script) s')
      (hdata : segwitv1InputData dev map input' index t = .ok inputData t')
      (hsingle : segwitv1SingleOutput dev g input' index u = .ok singleOutput u')
      (hleaf : LeafChecked w key extension)
      (hpath : kind = .schnorr ∧ path = key.keyDerivation ++
          [key.keyExpr.changeStep input'.inOut.isChange, input'.inOut.addressIndex] ∨
        kind = .musigPartial ∧ path = key.keyDerivation) :
      SignedBy hashes w key map input index (key.signature kind input' index (.tagged dev
        (segwitv1Common g input' hashes key.isTapscript ++ inputData ++ singleOutput ++ extension)) path)

/-- What precedes the signing of an input: the input is read, and the hash of the tapleaf is computed
for its address. -/
def Prepared (key : KeyexprInfo) (map : MerkleizedMapCommitment) (input : InputInfo) (index : Nat) : Prop :=
  index < g.nInputs ∧
  (∃ w w' : World σ, KeysOk dev g w ∧ readInput dev g index w = .ok (some (map, input)) w') ∧
  ∃ key0 s s', KeyOk dev g key0 ∧ PolicyCache dev g s.cache ∧
    fillTaprootKeyexprInfo dev g key0 input.inOut s = .ok key s'

def Signable (hashes : TxHashes) (w : World σ) (sig : Signature) : Prop :=
  ∃ key map input index, Prepared dev g key map input index ∧ SignedBy dev g hashes w key map input index sig

inductive Kind where
  | session
  | status
  | policy
  | markers
  | keys
  | nonces
  | inputAmount
  | input
  | outputAmount
  | output
  | reset
  | hashed
  | fee
  | screen
  | signed
  deriving DecidableEq

def Event.kind : Event → Kind
  | .policyRead _ _ => .policy
  | .finalityPkRead _ | .leafhashRead _ _ => .markers
  | .inputAmount _ => .inputAmount
  | .classified _ _ | .sighashAccepted _ _ => .input
  | .outputAmount _ => .outputAmount
  | .outputRead _ => .output
  | .outputsHashed _ => .hashed
  | .shown _ _ _ => .screen
  | .signed _ => .signed
  | .statusWord _ _ => .status

def Screen.fee? : Screen → Option UInt64
  | .validateTransaction fee _ | .validateTransactionSimplified _ _ _ _ fee => some fee
  | _ => none

def needsWarning (type : Option UInt32) : Prop := ∃ t, type = some t ∧ t ≠ SIGHASH_DEFAULT ∧ t ≠ SIGHASH_ALL

def World.append (w : World σ) (events : List Event) : World σ := { w with trace := w.trace ++ events }

def FeeShown (st : SignPsbtState) (screen : Screen) : Prop :=
  ∀ fee, screen.fee? = some fee → fee = st.fee ∧ st.warnings.highFee = st.isHighFee

inductive Step (hashes : TxHashes) : Kind → World σ → World σ → Prop
  | session {w : World σ} {s : Session σ} (h : Fetched dev g w.session s) :
      Step hashes .session w { w with session := s }
  | status {w : World σ} {sw : Nat} {ec : Option Nat} : Step hashes .status w (w.append [.statusWord sw ec])
  | policyRead {w : World σ} {name template : Bytes} :
      Step hashes .policy w (w.append [.policyRead name template])
  | finality {w : World σ} {pk : Bytes} : Step hashes .markers w
        (World.append { w with st := { w.st with psbtFinalityPk := some pk } } [.finalityPkRead pk])
  | leafhash {w : World σ} {kind : LeafhashKind} {leafhash : Bytes} (h : w.st.psbtLeafhash = none) :
      Step hashes .markers w
        (World.append { w with st := { w.st with psbtLeafhash := some (kind, leafhash) } }
          [.leafhashRead kind leafhash])
  | keys {w : World σ} {keys : List KeyexprInfo} :
      Step hashes .keys w { w with st := { w.st with internalKeyExpressions := keys } }
  | nonces {w : World σ} : Step hashes .nonces w { w with st := { w.st with hasMusig2PubNonces := true } }
  | inputAmount {w : World σ} {amount : UInt64} : Step hashes .inputAmount w (World.append
        { w with st := { w.st with inputsTotalAmount := w.st.inputsTotalAmount + amount } }
        [.inputAmount amount])
  | classified {w : World σ} {input : Nat} {isInternal : Bool} :
      Step hashes .input w (w.append [.classified input isInternal])
  | externalInput {w : World σ} :
      Step hashes .input w { w with st := { w.st with nExternalInputs := w.st.nExternalInputs + 1 } }
  | warning {w : World σ} {warnings : Warnings}
      (h : w.st.warnings.nonDefaultSighash → warnings.nonDefaultSighash) :
      Step hashes .input w { w with st := { w.st with warnings } }
  | sighashAccepted {w : World σ} {input : Nat} {type : Option UInt32}
      (h : needsWarning type → w.st.warnings.nonDefaultSighash) :
      Step hashes .input w (w.append [.sighashAccepted input type])
  | resetOutputs {w : World σ} : Step hashes .reset w
        { w with st := { w.st with outputs := ⟨0, 0, 0, []⟩, nExternalOutputs := 0 } }
  | outputAmount {w : World σ} {amount : UInt64} : Step hashes .outputAmount w (World.append
        { w with st := { w.st with
          outputs := { w.st.outputs with totalAmount := w.st.outputs.totalAmount + amount } } }
        [.outputAmount amount])
  | outputRead {w : World σ} {output : OutputRead} : Step hashes .output w (w.append [.outputRead output])
  | output {w : World σ} {outputs : OutputsInfo} {nExternalOutputs : Nat}
      (h : outputs.totalAmount = w.st.outputs.totalAmount) :
      Step hashes .output w { w with st := { w.st with outputs, nExternalOutputs } }
  | outputsHashed {w : World σ} {outputs : Bytes} : Step hashes .hashed w (w.append [.outputsHashed outputs])
  | shown {w : World σ} {screen : Screen} {accepted : Bool} (h : FeeShown w.st screen) :
      Step hashes .screen w (w.append [.shown screen w.st.warnings accepted])
  | highFee {w : World σ} {highFee : Bool} :
      Step hashes .fee w { w with st := { w.st with warnings := { w.st.warnings with highFee } } }
  | signed {w : World σ} {sig : Signature} (h : Signable dev g hashes w sig) :
      Step hashes .signed w (w.append [.signed sig])

theorem Step.events {hashes : TxHashes} {kind : Kind} {w w' : World σ} (h : Step dev g hashes kind w w') :
    ∃ events, w'.trace = w.trace ++ events ∧ ∀ e ∈ events, e.kind = kind := by
  cases h with
  | session | keys | nonces | externalInput | warning | resetOutputs | output | highFee =>
    exact ⟨[], by simp⟩
  | _ => exact ⟨_, rfl, by simp [Event.kind]⟩

def Run (hashes : TxHashes) (kinds : List Kind) : World σ → World σ → Prop :=
  Relation.ReflTransGen fun w w' => ∃ kind ∈ kinds, Step dev g hashes kind w w'

instance (hashes : TxHashes) (kinds : List Kind) : Evolution (Run dev g hashes kinds) :=
  inferInstanceAs (Evolution (Relation.ReflTransGen _))

theorem Run.mono {hashes : TxHashes} {kinds : List Kind} (kinds' : List Kind) {w w' : World σ}
    (hrun : Run dev g hashes kinds w w') (h : kinds ⊆ kinds') : Run dev g hashes kinds' w w' := by
  refine Relation.ReflTransGen.mono ?_ w w' hrun
  rintro w w' ⟨kind, hkind, hstep⟩
  exact ⟨kind, h hkind, hstep⟩

abbrev Does (hashes : TxHashes) (kinds : List Kind) (P : α → Prop) (x : Sign σ α) : Prop :=
  Within (KeysOk dev g) (Run dev g hashes kinds) P x

end LedgerBabylon
