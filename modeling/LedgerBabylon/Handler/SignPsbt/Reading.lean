import LedgerBabylon.Handler.SignPsbt.Steps

/-!
# What fetching does in a signing run

The parts of the flow that only fetch data leave the state and the trace alone. Most of them only ask
the environment; the others also add uses of arrays to the session.
-/

namespace LedgerBabylon

open Exec

variable {σ α : Type} {dev : Device σ} {g : GlobalState}

variable {ε : Type} {P : α → Prop} {x : Query σ α} {key : KeyexprInfo}

@[grind ←] theorem asks_ledgerAssert (cond : Bool) : Asks dev (ledgerAssert cond : Fetch σ Unit) := by
  unfold ledgerAssert
  grind

theorem asks_readGlobalMap (globalMap : MerkleizedMapCommitment) :
    Asks dev (readGlobalMap dev globalMap) := by
  apply asks_bind (asks_callCheckMerkleTreeSorted _ _)
  intro sorted
  apply asks_bind (asks_someOr _ _)
  grind

theorem asks_fetchWalletPolicy (walletId : Digest) : Asks dev (fetchWalletPolicy dev walletId) := by
  unfold fetchWalletPolicy
  grind

theorem asks_masterFingerprint : Asks dev (masterFingerprint dev) := by
  unfold masterFingerprint
  grind

@[grind ←] theorem asks_readDerivation (keyType : UInt8) (data : Bytes) (map : MerkleizedMapCommitment)
    (index : Nat) : Asks dev (readDerivation dev keyType data map index) := by
  unfold readDerivation
  grind

theorem asks_checkUtxosForWallet (segwitVersion : Int) (input : InputInfo) :
    Asks dev (checkUtxosForWallet segwitVersion input : Fetch σ Unit) := by
  unfold checkUtxosForWallet
  grind

theorem asks_checkSingle (type : UInt32) (index : Nat) :
    Asks dev (checkSingle g type index : Fetch σ Unit) := by
  unfold checkSingle
  grind

theorem asks_checkInput (input : InputInfo) : Asks dev (checkInput input : Fetch σ Unit) := by
  unfold checkInput
  grind

theorem asks_checkOutputs (st : SignPsbtState) : Asks dev (checkOutputs st : Fetch σ Unit) := by
  unfold checkOutputs
  grind

theorem asks_getOutputScriptAndAmount (index : Nat) : Asks dev (getOutputScriptAndAmount dev g index) := by
  have hscript (map : MerkleizedMapCommitment) (sw : Nat) : Asks dev (readOutputScript dev map sw) := by
    unfold readOutputScript
    grind
  unfold getOutputScriptAndAmount
  grind

@[grind ←] theorem asks_fetchInputMap (index sw : Nat) : Asks dev (fetchInputMap dev g index sw) := by
  unfold fetchInputMap
  grind

theorem asks_musigSession (id : Digest) : Asks dev (musigSession dev id) := by
  unfold musigSession
  grind

theorem asks_partialSignature (key : KeyexprInfo) (info : MusigPerInputInfo)
    (aggnonce : MusigPubnonce) (secnonce : MusigSecnonce) (sighash : Bytes) :
    Asks dev (partialSignature dev key info aggnonce secnonce sighash) := by
  unfold partialSignature
  grind

section

variable (map : MerkleizedMapCommitment) (input : InputInfo)

@[grind ←] theorem asks_getAmountScriptpubkeyFromPsbtNonwitness
    (expectedPrevoutHash : Option Bytes) :
    Asks dev (getAmountScriptpubkeyFromPsbtNonwitness dev map expectedPrevoutHash) := by
  unfold getAmountScriptpubkeyFromPsbtNonwitness
  grind

@[grind ←] theorem asks_getAmountScriptpubkeyFromPsbtWitness :
    Asks dev (getAmountScriptpubkeyFromPsbtWitness dev map) := by
  unfold getAmountScriptpubkeyFromPsbtWitness
  grind

theorem asks_readNonWitnessUtxo : Asks dev (readNonWitnessUtxo dev map) := by
  have htxid : Asks dev (readPreviousTxid dev map) := by
    unfold readPreviousTxid
    grind
  unfold readNonWitnessUtxo
  grind

theorem asks_readWitnessUtxo : Asks dev (readWitnessUtxo dev map input) := by
  unfold readWitnessUtxo
  grind

@[grind ←] theorem asks_fetchSequence : Asks dev (fetchSequence dev map) := by
  unfold fetchSequence
  grind

@[grind ←] theorem asks_fetchOutpoint (swHash swIndex : Nat) :
    Asks dev (fetchOutpoint dev map swHash swIndex) := by
  unfold fetchOutpoint
  grind

theorem asks_prevoutsLoop (n index : Nat) : Asks dev (prevoutsLoop dev g n index) := by
  fun_induction prevoutsLoop with grind

theorem asks_amountsLoop (n index : Nat) : Asks dev (amountsLoop dev g n index) := by
  have hamount (map : MerkleizedMapCommitment) : Asks dev (getAmountScriptpubkeyFromPsbt dev map) := by
    unfold getAmountScriptpubkeyFromPsbt
    grind
  fun_induction amountsLoop with grind

theorem asks_legacyInputsLoop (curInputIndex n index : Nat) :
    Asks dev (legacyInputsLoop dev g map input curInputIndex n index) := by
  have hmap (index : Nat) : Asks dev (legacyInputMap dev g map curInputIndex index) := by
    unfold legacyInputMap
    grind
  have hscript (index : Nat) : Asks dev (legacyScriptCodeAt dev map input curInputIndex index) := by
    unfold legacyScriptCodeAt legacyScriptCode
    grind
  fun_induction legacyInputsLoop with grind

theorem asks_segwitv0ScriptCode (script : Bytes) : Asks dev (segwitv0ScriptCode dev map script) := by
  unfold segwitv0ScriptCode
  grind

@[grind ←] theorem asks_fetchWitnessAmount : Asks dev (fetchWitnessAmount dev map) := by
  unfold fetchWitnessAmount
  grind

theorem asks_segwitv1InputData (curInputIndex : Nat) :
    Asks dev (segwitv1InputData dev map input curInputIndex) := by
  unfold segwitv1InputData
  grind

theorem asks_fetchPubnonces (suffix : Bytes) (keys : List Bytes) :
    Asks dev (fetchPubnonces dev map suffix keys) := by
  fun_induction fetchPubnonces with grind

@[grind ←] theorem asks_signedSighashType (default : UInt32) :
    Asks dev (signedSighashType dev map input default) := by
  unfold signedSighashType
  grind

theorem asks_segwitInput : Asks dev (segwitInput dev g map input) := by
  unfold segwitInput segwitScript
  grind

end

theorem SignReads.of_reads {x : EStateM ε (Session σ) α} (h : Reads (PolicyCache dev g) (SignUse dev g) P x)
    (hx : ∀ J, dev.env.Keeps J → Keeps (Session.In J) x) : SignReads dev g P x := by
  have hreaches {s s' : Session σ} (hs : finalState x s = s') :
      dev.env.Reaches SigningResponse s.env s'.env := fun J hJ _ he =>
    hs ▸ keeps_iff.mp (hx J hJ) s he
  refine .of_cases (fun s a s' hs hrun => ?_) fun s e s' hs hrun => ?_
  · obtain ⟨huses, hcache, ha⟩ := h.ok hs hrun
    exact ⟨⟨huses, hreaches (by rw [finalState, hrun])⟩, hcache, ha⟩
  · obtain ⟨huses, hcache⟩ := h.error hs hrun
    exact ⟨⟨huses, hreaches (by rw [finalState, hrun])⟩, hcache⟩

theorem Asks.reads {x : EStateM ε (Session σ) α} (h : Asks dev x) : SignReads dev g (fun _ => True) x := by
  refine .of_reads (Within.of_cases (fun s a s' hs hrun => ?_) fun s e s' hs hrun => ?_)
    fun _ hJ => h.keeps hJ
  · obtain ⟨⟨e, rfl, -⟩, -⟩ := h.ok trivial hrun
    exact ⟨.of_eq rfl, hs, trivial⟩
  · obtain ⟨⟨e, rfl, -⟩, -⟩ := h.error trivial hrun
    exact ⟨.of_eq rfl, hs⟩

theorem reads_query (h : SignReads dev g P x) :
    SignReads dev g (fun a : Except Int α => ∀ b, a = .ok b → P b) (query x) := by
  intro s hs
  unfold query
  cases hx : x s with
  | ok a s' =>
    obtain ⟨hfetched, hs', ha⟩ := h.ok hs hx
    refine ⟨hfetched, hs', ?_⟩
    rintro b ⟨⟩
    exact ha
  | error fault s' =>
    obtain ⟨hfetched, hs'⟩ := h.error hs hx
    cases fault with
    | ret code => exact ⟨hfetched, hs', by simp⟩
    | _ => exact ⟨hfetched, hs'⟩

theorem reads_call {x : Ask σ α}
    (h : ∀ J, dev.env.Keeps J → (∀ r, SigningResponse r → Keeps J (dev.env.yield r)) → Keeps J x) :
    SignReads dev g (Outcome x) (call x) := by
  intro s hs
  unfold call query ask
  cases hx : x s.env with
  | ok a e => exact ⟨.of_ask h (by rw [finalState, hx]), hs, s.env, e, hx⟩
  | error fault e =>
    cases fault with
    | ret code => exact ⟨.of_ask h (by rw [finalState, hx]), hs, s.env, e, hx⟩
    | _ => exact ⟨.of_ask h (by rw [finalState, hx]), hs⟩

theorem reads_noteUses {uses : List ArrayUse} (h : ∀ u ∈ uses, SignUse dev g u) :
    SignReads dev g (fun _ => True) (noteUses uses : Fetch σ Unit) :=
  Within.modify fun s hs => ⟨⟨⟨uses, rfl, h⟩, Evolution.refl s.env⟩, hs⟩

theorem reads_fail (sw : Nat) : SignReads dev g P (fail sw : Fetch σ α) := .throw

theorem reads_failEc (sw ec : Nat) : SignReads dev g P (failEc sw ec : Fetch σ α) := Within.throw

theorem reads_undefinedBehaviour : SignReads dev g P (undefinedBehaviour : Fetch σ α) := .throw

theorem reads_okOr (sw : Nat) (r : Except Int α) : SignReads dev g (r = .ok ·) (okOr sw r : Fetch σ α) := by
  cases r with
  | error code => exact reads_fail sw
  | ok a => exact .pure rfl

theorem reads_someOr (sw : Nat) (o : Option α) : SignReads dev g (o = some ·) (someOr sw o : Fetch σ α) := by
  cases o with
  | none => exact reads_fail sw
  | some a => exact .pure rfl

theorem reads_checkOr (sw : Nat) (cond : Bool) :
    SignReads dev g (fun _ => cond = true) (checkOr sw cond : Fetch σ Unit) :=
  Within.ite (fun h => .pure h) fun _ => reads_fail sw

theorem reads_isOwnKey (path : List UInt32) (key : ExtPubkey) :
    SignReads dev g (fun own => own = true → dev.crypto.getExtendedPubkeyAtPath path = some key)
      (isOwnKey dev path key) := by
  unfold isOwnKey
  split
  · exact reads_undefinedBehaviour
  · next derived hderived =>
      refine .pure ?_
      simp only [decide_eq_true_eq]
      rintro rfl
      exact hderived

section

variable {J : σ → Prop} (hJ : dev.env.Keeps J) (wdi : WalletDerivationInfo)
include hJ

/-- Computing a script from keys is taken for a refinement of itself of which nothing is claimed. -/
theorem refines_derivedPubkey_self (key : KeyExpr) (_ : True) :
    Refines (Session.In J) (fun _ _ => True) False (fun _ => True) (getDerivedPubkey dev wdi key)
      (getDerivedPubkey (dev.withEnv dev.env) wdi key) :=
  ⟨keeps_getDerivedPubkey wdi hJ key, False.elim⟩

theorem keeps_computeTapleafHash (script : PolicyNode) :
    Keeps (Session.In J) (computeTapleafHash dev wdi script) :=
  (refines_computeTapleafHash (refines_derivedPubkey_self hJ wdi) fun _ _ => trivial).within

theorem keeps_taptreeHashIfAny (tree : Option (PolicyTree PolicyNode)) :
    Keeps (Session.In J) (taptreeHashIfAny dev wdi tree) :=
  (refines_taptreeHashIfAny (refines_derivedPubkey_self hJ wdi) fun _ _ _ _ _ _ => trivial).within

theorem keeps_compareWalletScriptAtPath (policy : PolicyNode) (script : Bytes) :
    Keeps (Session.In J) (compareWalletScriptAtPath dev policy wdi script) :=
  keeps_bind (refines_getWalletScript (refines_derivedPubkey_self hJ wdi) fun _ _ => trivial).within
    fun _ => keeps_pure _

end

theorem ReadsKeys.sign (h : ReadsKeys dev g.header g.policy x)
    (hx : ∀ J, dev.env.Keeps J → Keeps (Session.In J) x) :
    SignReads dev g (fun _ => True) (query x) :=
  (reads_query (.of_reads (h.imp fun _ _ => Uses.mono fun _ => .keyInfo) hx)).steps

theorem reads_parseKeyInfoAnyway {info : Bytes} (h : PolicyKeyInfo dev g info) : SignReads dev g
      (fun keyInfo => ∃ ok,
        parsePolicyMapKeyInfo dev.crypto.sha256 g.header.version info = some (ok, keyInfo))
      (parseKeyInfoAnyway dev g.header.version info) := by
  have hparse : SignReads dev g
      (fun result => parsePolicyMapKeyInfo dev.crypto.sha256 g.header.version info = some result)
      (parseKeyInfo dev g.header.version info) :=
    .of_reads ((reads_parseKeyInfo h).imp fun _ _ => Uses.mono fun _ => .keyInfo)
      fun _ _ => keeps_parseKeyInfo _ _
  refine .bind (reads_query hparse) fun parsed hparsed => ?_
  cases parsed with
  | error code => exact reads_undefinedBehaviour
  | ok result => exact .pure ⟨result.1, hparsed result rfl⟩

theorem reads_isInOutInternal (inOut : InOutInfo) (isInput : Bool) :
    SignReads dev g (fun _ => True) (isInOutInternal dev g inOut isInput) := by
  refine .ite (fun _ => .pure trivial) fun _ => ?_
  refine .ite (fun _ => .pure trivial) fun _ => ?_
  exact (readsKeys_compareWalletScriptAtPath _).sign fun _ hJ =>
    keeps_compareWalletScriptAtPath hJ _ _ _

def ScriptFetched (dev : Device σ) (map : MerkleizedMapCommitment) (script : Except Int Bytes) : Prop :=
  Outcome (dev.env.mapValue map [PSBT_OUT_SCRIPT] maxOutputScriptPubKeyLen) script ∧ script ≠ .error (-1)

theorem reads_readOutputScript (map : MerkleizedMapCommitment) (sw : Nat) :
    SignReads dev g (ScriptFetched dev map) (readOutputScript dev map sw) := by
  refine .bind (reads_call fun _ h _ => h.mapValue _ _ _) fun answer hanswer => ?_
  cases answer with
  | ok script => exact .pure ⟨hanswer, by simp⟩
  | error code =>
    refine .ite (fun _ => reads_fail _) fun hcode => .pure ⟨hanswer, ?_⟩
    simpa using hcode

theorem reads_copyScript {map : MerkleizedMapCommitment} {script : Except Int Bytes}
    (h : ScriptFetched dev map script) :
    SignReads dev g (fun _ => True) (copyScript script : Fetch σ Bytes) := by
  cases script with
  | ok script =>
    refine .bind (reads_noteUses ?_) fun _ _ => .pure trivial
    exact List.forall_mem_singleton.mpr (.outputScript h.1)
  | error code =>
    refine .bind (reads_noteUses ?_) fun _ _ => reads_undefinedBehaviour
    exact List.forall_mem_singleton.mpr (.outputScriptError (fun hcode => h.2 (by rw [hcode])) h.1)

theorem reads_readOutput (map : MerkleizedMapCommitment) (inOut : InOutInfo) (amount : UInt64) :
    SignReads dev g (fun output => ScriptFetched dev map output.script)
      (readOutput dev g map inOut amount) := by
  refine .bind (reads_readOutputScript map _) fun script hscript => ?_
  refine .bind (reads_isInOutInternal _ _) fun _ _ => ?_
  exact (reads_okOr _ _).bind fun _ _ => .pure hscript

theorem reads_setInternalOutput {index : Nat} (h : index < g.nOutputs) (isInternal : Bool)
    (internal : List Bool) :
    SignReads dev g (fun _ => True) (setInternalOutput index isInternal internal : Fetch σ (List Bool)) := by
  refine .bind (reads_noteUses ?_) fun _ _ => ?_
  · exact List.forall_mem_singleton.mpr (.internalOutput h)
  · exact .ite (fun _ => .pure trivial) fun _ => reads_undefinedBehaviour

theorem reads_hashOutputN (index : Nat) : SignReads dev g (fun _ => True) (hashOutputN dev g index) := by
  refine .ite (fun _ => .pure trivial) fun _ => ?_
  refine .bind (asks_callGetMerkleizedMap _ _ _).reads fun map _ => ?_
  cases map with
  | none => exact .pure trivial
  | some map =>
    refine .bind (asks_fetchLen _ _ _).reads fun amount _ => ?_
    cases amount with
    | none => exact .pure trivial
    | some amount =>
      refine .bind (reads_call fun _ h _ => h.mapValue _ _ _) fun answer hanswer => ?_
      split
      · exact .pure trivial
      · next hne =>
          have hscript : ScriptFetched dev map answer := ⟨hanswer, hne⟩
          refine .bind (reads_copyScript hscript) fun _ _ => ?_
          exact .pure trivial

theorem reads_hashOutputsLoop (n index : Nat) :
    SignReads dev g (fun _ => True) (hashOutputsLoop dev g n index) := by
  induction n generalizing index with
  | zero => exact .pure trivial
  | succ n ih =>
    refine .bind (reads_hashOutputN index) fun output _ => ?_
    cases output with
    | none => exact .pure trivial
    | some output => exact (ih _).bind fun _ _ => .pure trivial

theorem reads_computeTxHashes : SignReads dev g (fun _ => True) (computeTxHashes dev g) := by
  refine .bind (asks_prevoutsLoop _ _).reads fun _ _ => ?_
  refine .bind (reads_hashOutputsLoop _ _) fun _ _ => ?_
  refine .bind (reads_someOr _ _) fun _ _ => ?_
  exact (asks_amountsLoop _ _).reads.bind fun _ _ => .pure trivial

variable (map : MerkleizedMapCommitment) (input : InputInfo)

theorem reads_computeSighashLegacy (curInputIndex : Nat) :
    SignReads dev g (fun _ => True) (computeSighashLegacy dev g map input curInputIndex) := by
  refine .bind (asks_legacyInputsLoop map input _ _ _).reads fun _ _ => ?_
  refine .bind (reads_hashOutputsLoop _ _) fun _ _ => ?_
  exact (reads_someOr _ _).bind fun _ _ => .pure trivial

theorem reads_segwitv0HashOutputs (hashes : TxHashes) (sighashByte : UInt8) (curInputIndex : Nat) :
    SignReads dev g (fun _ => True) (segwitv0HashOutputs dev g hashes sighashByte curInputIndex) := by
  refine .ite (fun _ => .pure trivial) fun _ => ?_
  refine .ite (fun _ => ?_) fun _ => .pure trivial
  refine .bind (reads_hashOutputN _) fun _ _ => ?_
  exact (reads_someOr _ _).bind fun _ _ => .pure trivial

theorem reads_computeSighashSegwitv0 (hashes : TxHashes) (script : Bytes) (curInputIndex : Nat) :
    SignReads dev g (fun _ => True) (computeSighashSegwitv0 dev g map input hashes script curInputIndex) := by
  refine .bind (asks_fetchOutpoint _ _ _).reads fun _ _ => ?_
  refine .bind (asks_segwitv0ScriptCode map _).reads fun _ _ => ?_
  refine .bind (asks_fetchWitnessAmount map).reads fun _ _ => ?_
  refine .bind (asks_fetchSequence _).reads fun _ _ => ?_
  exact (reads_segwitv0HashOutputs _ _ _).bind fun _ _ => .pure trivial

theorem reads_segwitv1SingleOutput (curInputIndex : Nat) :
    SignReads dev g (fun _ => True) (segwitv1SingleOutput dev g input curInputIndex) := by
  refine .ite (fun _ => ?_) fun _ => .pure trivial
  refine .bind (reads_hashOutputN _) fun _ _ => ?_
  exact (reads_someOr _ _).bind fun _ _ => .pure trivial

theorem reads_signPath (hkey : KeyOk dev g key) (inOut : InOutInfo) : SignReads dev g
      (fun path => path = key.keyDerivation ++ [key.keyExpr.changeStep inOut.isChange, inOut.addressIndex])
      (signPath key inOut : Fetch σ (List UInt32)) := by
  refine .bind (reads_noteUses ?_) fun _ _ => ?_
  · intro u hu
    obtain ⟨position, hposition, rfl⟩ := List.mem_map.mp hu
    exact .signStep hkey (List.mem_range.mp hposition)
  · exact .ite (fun _ => reads_undefinedBehaviour) fun _ => .pure rfl

theorem reads_fetchMusigKeys (inOut : InOutInfo) (keyIndexes : List Nat) : SignReads dev g (fun _ => True)
      (fetchMusigKeys dev (walletDerivationInfo g inOut) keyIndexes) := by
  induction keyIndexes with
  | nil => exact .pure trivial
  | cons index indexes ih =>
    refine .bind ((readsKeys_getExtendedPubkeyFromClient index).sign fun _ hJ =>
      keeps_getExtendedPubkeyFromClient _ hJ _) fun key _ => ?_
    cases key with
    | error code => exact .pure trivial
    | ok key => exact ih.bind fun _ _ => .pure trivial

theorem reads_tweakedMusigInfo (hashes : TxHashes) (key : KeyexprInfo) (inOut : InOutInfo)
    (taptreeHash : Option Digest) (keys : List Bytes) :
    SignReads dev g (fun _ => True) (tweakedMusigInfo dev g hashes key inOut taptreeHash keys) := by
  refine .bind (reads_someOr _ _) fun _ _ => ?_
  refine .bind (reads_someOr _ _) fun _ _ => ?_
  exact .ite (fun _ => .pure trivial) fun _ => .pure trivial

theorem reads_gatherMusig (hashes : TxHashes) (key : KeyexprInfo) (map : MerkleizedMapCommitment)
    (inOut : InOutInfo) (taptreeHash : Option Digest) (curInputIndex : Nat) (keyIndexes : List Nat) :
    SignReads dev g (fun _ => True)
      (gatherMusig dev g hashes key map inOut taptreeHash curInputIndex keyIndexes) := by
  have hinfo : SignReads dev g (fun _ => True)
      (computeMusigPerInputInfo dev g hashes key inOut taptreeHash curInputIndex keyIndexes) := by
    refine .bind (reads_fetchMusigKeys inOut keyIndexes) fun found _ => ?_
    refine .ite (fun _ => ?_) fun _ => .pure trivial
    exact (reads_tweakedMusigInfo _ _ _ _ _).bind fun _ _ => .pure trivial
  refine .bind hinfo fun info _ => .bind (P := fun _ => True) ?_ fun _ _ => .pure trivial
  refine .bind (asks_fetchPubnonces _ _ _).reads fun _ _ => ?_
  refine .bind (asks_musigSession _).reads fun _ _ => ?_
  exact (asks_fetchPubnonces _ _ _).reads.bind fun _ _ => .pure trivial

theorem reads_legacySighash (key : KeyexprInfo) (curInputIndex : Nat) :
    SignReads dev g (fun _ => True) (legacySighash dev g key map input curInputIndex) := by
  refine .bind (asks_signedSighashType map input _).reads fun _ _ => ?_
  refine .bind (asks_ledgerAssert _).reads fun _ _ => ?_
  refine .bind (asks_getAmountScriptpubkeyFromPsbtNonwitness map _).reads fun _ _ => ?_
  refine .bind (reads_someOr _ _) fun _ _ => ?_
  exact (reads_computeSighashLegacy map _ _).bind fun _ _ => .pure trivial

theorem reads_segwitv0Sighash (hashes : TxHashes) (key : KeyexprInfo) (script : Bytes) (curInputIndex : Nat) :
    SignReads dev g (fun _ => True) (segwitv0Sighash dev g hashes key map input script curInputIndex) :=
  (asks_ledgerAssert _).reads.bind fun _ _ => reads_computeSighashSegwitv0 map input hashes script _

theorem reads_signingTaptreeHash (key : KeyexprInfo) (inOut : InOutInfo) {internalKey : KeyExpr}
    {tree : Option (PolicyTree PolicyNode)} (hpolicy : g.policy = .tr internalKey tree) :
    SignReads dev g (fun _ => True) (signingTaptreeHash dev g key inOut tree) := by
  refine .ite (fun _ => .pure trivial) fun _ => ?_
  refine .bind (ReadsKeys.sign (readsKeys_taptreeHashIfAny ?_) fun _ hJ =>
    keeps_taptreeHashIfAny hJ _ _) fun _ _ => (reads_okOr _ _).steps
  intro t ht script hscript key hkey
  rw [hpolicy]
  exact PolicyNode.mem_keys_of_leaf ht hscript hkey

theorem reads_fillTaprootKeyexprInfo (hkey : KeyOk dev g key) (inOut : InOutInfo) :
    SignReads dev g (fun _ => True) (fillTaprootKeyexprInfo dev g key inOut) := by
  unfold fillTaprootKeyexprInfo
  split
  · exact .pure trivial
  · next leaf hleaf =>
      refine .bind (ReadsKeys.sign (readsKeys_computeTapleafHash (hkey.leafKeys leaf hleaf))
        fun _ hJ => keeps_computeTapleafHash hJ _ _) fun hash _ => ?_
      cases hash with
      | error code => exact .throw
      | ok hash => exact .pure trivial

end LedgerBabylon
