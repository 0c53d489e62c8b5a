import LedgerBabylon.Handler.SignPsbt.Flow

/-!
# Signing as steps

The signing loop and the whole run as steps. A signature is yielded only after its input was read
again, the hash of its tapleaf was computed and, for tapscripts, compared with the marker's.
-/

namespace LedgerBabylon

open Exec

variable {σ α : Type} {dev : Device σ} {g : GlobalState} {hashes : TxHashes} {kinds : List Kind}

variable {w w' : World σ} {leafhash : LeafhashKind × Bytes} {extension : Bytes}
  {key' : KeyexprInfo} {inOut : InOutInfo} {s s' : Session σ} {P : α → Prop} {sig : Signature}

theorem Step.psbtLeafhash {kind : Kind} (h : Step dev g hashes kind w w')
    (hw : w.st.psbtLeafhash = some leafhash) : w'.st.psbtLeafhash = some leafhash := by
  cases h with
  | leafhash hnone =>
    rw [hnone] at hw
    cases hw
  | _ => exact hw

theorem Run.events (h : Run dev g hashes kinds w w') :
    ∃ events, w'.trace = w.trace ++ events ∧ ∀ e ∈ events, e.kind ∈ kinds := by
  refine h.induction (J := fun v => ∃ events, v.trace = w.trace ++ events ∧ ∀ e ∈ events, e.kind ∈ kinds)
    (fun kind hkind v v' hstep hv => ?_) ⟨[], by simp⟩
  obtain ⟨events, hevents, hkinds⟩ := hv
  obtain ⟨events', hevents', hkinds'⟩ := hstep.events
  refine ⟨events ++ events', by rw [hevents', hevents, List.append_assoc], fun e he => ?_⟩
  rcases List.mem_append.mp he with he | he
  · exact hkinds e he
  · rwa [hkinds' e he]

theorem Run.filterMap_eq {f : Event → Option α} (h : Run dev g hashes kinds w w')
    (hf : ∀ e, e.kind ∈ kinds → f e = none) : w'.trace.filterMap f = w.trace.filterMap f := by
  obtain ⟨events, hevents, hkind⟩ := h.events
  have hnone : events.filterMap f = [] := List.filterMap_eq_nil_iff.mpr fun e he => hf e (hkind e he)
  rw [hevents, List.filterMap_append, hnone, List.append_nil]

theorem Run.psbtLeafhash (h : Run dev g hashes kinds w w') (hw : w.st.psbtLeafhash = some leafhash) :
    w'.st.psbtLeafhash = some leafhash :=
  h.induction (J := fun v => v.st.psbtLeafhash = some leafhash) (fun _ _ _ _ hstep => hstep.psbtLeafhash) hw

theorem LeafConfirmed.run (hrun : Run dev g hashes kinds w w')
    (hkinds : .signed ∉ kinds) {leafhash : Bytes} (h : LeafConfirmed w.trace leafhash) :
    LeafConfirmed w'.trace leafhash := by
  obtain ⟨warnings, earlier, since, htrace, hsince⟩ := h
  obtain ⟨events, hevents, hkind⟩ := hrun.events
  refine ⟨warnings, earlier, since ++ events, by rw [hevents, htrace, List.append_assoc]; rfl, ?_⟩
  intro sig hsig
  rcases List.mem_append.mp hsig with hsig | hsig
  · exact hsince sig hsig
  · exact hkinds (hkind _ hsig)

variable {key : KeyexprInfo}

theorem LeafChecked.run (hrun : Run dev g hashes kinds w w') (hkinds : .signed ∉ kinds)
    (h : LeafChecked w key extension) : LeafChecked w' key extension := by
  cases h with
  | keyPath h => exact .keyPath h
  | tapscript h hleafhash hshown =>
    exact .tapscript h (hrun.psbtLeafhash hleafhash) fun hkind => (hshown hkind).run hrun hkinds

theorem callIgnored_ok {x : Ask σ α} {a : Option α}
    (h : callIgnored x w = .ok a w') : ∃ s, w' = { w with session := s } := by
  unfold callIgnored at h
  split at h <;> cases h <;> exact ⟨_, rfl⟩

theorem confirmOrDeny_ok {screen : Screen} {u : Unit} (h : confirmOrDeny dev screen w = .ok u w') :
    ∃ s, w' = World.append { w with session := s } [.shown screen w.st.warnings true] := by
  obtain ⟨accepted, w2, hconfirm, hcheck⟩ := bind_ok h
  obtain ⟨rfl, rfl⟩ := fetch_checkOr_ok_iff.mp hcheck
  obtain ⟨answer, w1, hcall, hrest⟩ := bind_ok hconfirm
  obtain ⟨s1, rfl⟩ := callIgnored_ok hcall
  have hresult : EStateM.Result.ok (answer.getD false) (World.append { w with session := s1 }
      [.shown screen w.st.warnings (answer.getD false)]) = .ok true w2 := hrest
  injection hresult with haccepted hw
  rw [haccepted] at hw
  exact ⟨s1, hw.symm⟩

theorem segwitv1Extension_ok
    (h : segwitv1Extension dev key w = .ok extension w') : LeafChecked w' key extension := by
  unfold segwitv1Extension at h
  split at h
  · next htapscript =>
      obtain ⟨st, w1, hst, h⟩ := bind_ok h
      cases hst
      obtain ⟨⟨kind, leafhash⟩, w2, hsome, h⟩ := bind_ok h
      obtain ⟨hleafhash, rfl⟩ := fetch_someOr_ok_iff.mp hsome
      obtain ⟨_, w3, hcheck, h⟩ := bind_ok h
      obtain ⟨heq, rfl⟩ := fetch_checkOr_ok_iff.mp hcheck
      obtain rfl : key.tapleafHash = leafhash := by simpa using heq
      by_cases hkind : kind = .display
      · simp only [hkind, if_true] at h
        obtain ⟨_, w4, hconfirm, h⟩ := bind_ok h
        obtain ⟨s4, rfl⟩ := confirmOrDeny_ok hconfirm
        obtain ⟨rfl, rfl⟩ := pure_ok h
        exact .tapscript htapscript hleafhash fun _ => ⟨w.st.warnings, w.trace, [], rfl, by simp⟩
      · simp only [hkind, if_false] at h
        obtain ⟨rfl, rfl⟩ := pure_ok h
        exact .tapscript htapscript hleafhash fun h => absurd h hkind
  · next htapscript =>
      obtain ⟨rfl, rfl⟩ := pure_ok h
      exact .keyPath (by simpa using htapscript)

def TaprootMessage (dev : Device σ) (g : GlobalState) (hashes : TxHashes) (key : KeyexprInfo)
    (map : MerkleizedMapCommitment) (input : InputInfo) (index : Nat) (sighash : Sighash)
    (w : World σ) : Prop :=
  ∃ inputData singleOutput extension, (∃ s s', segwitv1InputData dev map input index s = .ok inputData s') ∧
    (∃ s s', segwitv1SingleOutput dev g input index s = .ok singleOutput s') ∧
    LeafChecked w key extension ∧ sighash = .tagged dev
      (segwitv1Common g input hashes key.isTapscript ++ inputData ++ singleOutput ++ extension)

theorem computeSighashSegwitv1_ok {map : MerkleizedMapCommitment}
    {input : InputInfo} {index : Nat} {sighash : Sighash}
    (h : computeSighashSegwitv1 dev g map input hashes index key w = .ok sighash w') :
    TaprootMessage dev g hashes key map input index sighash w' := by
  obtain ⟨inputData, w1, hdata, h⟩ := bind_ok h
  obtain ⟨s1, hdata, -⟩ := fetch_ok_iff.mp hdata
  obtain ⟨singleOutput, w2, hsingle, h⟩ := bind_ok h
  obtain ⟨s2, hsingle, -⟩ := fetch_ok_iff.mp hsingle
  obtain ⟨extension, w3, hextension, h⟩ := bind_ok h
  obtain ⟨rfl, rfl⟩ := pure_ok h
  exact ⟨inputData, singleOutput, extension, ⟨_, _, hdata⟩, ⟨_, _, hsingle⟩,
    segwitv1Extension_ok hextension, rfl⟩

theorem TaprootMessage.run {map : MerkleizedMapCommitment} {input : InputInfo}
    {index : Nat} {sighash : Sighash} (hrun : Run dev g hashes kinds w w')
    (hkinds : .signed ∉ kinds) (h : TaprootMessage dev g hashes key map input index sighash w) :
    TaprootMessage dev g hashes key map input index sighash w' := by
  obtain ⟨inputData, singleOutput, extension, hdata, hsingle, hleaf, rfl⟩ := h
  exact ⟨inputData, singleOutput, extension, hdata, hsingle, hleaf.run hrun hkinds, rfl⟩

theorem fillTaprootKeyexprInfo_ok (h : fillTaprootKeyexprInfo dev g key inOut s = .ok key' s') :
    key.tapleaf = none ∧ key' = key ∨
    ∃ leaf hash, key.tapleaf = some leaf ∧
      computeTapleafHash dev (walletDerivationInfo g inOut) leaf s = .ok hash s' ∧
      key' = { key with tapleafHash := hash.bytes } := by
  unfold fillTaprootKeyexprInfo at h
  cases htapleaf : key.tapleaf with
  | none =>
    rw [htapleaf] at h
    exact .inl ⟨rfl, (pure_ok h).1.symm⟩
  | some leaf =>
    rw [htapleaf] at h
    obtain ⟨answer, s1, hquery, h⟩ := bind_ok h
    rcases query_ok_iff.mp hquery with ⟨hash, rfl, hhash⟩ | ⟨code, rfl, -⟩
    · obtain ⟨rfl, rfl⟩ := pure_ok h
      exact .inr ⟨leaf, hash, rfl, hhash, rfl⟩
    · exact absurd h (by simp)

theorem KeyOk.fillTaproot (hkey : KeyOk dev g key)
    (h : fillTaprootKeyexprInfo dev g key inOut s = .ok key' s') : KeyOk dev g key' := by
  rcases fillTaprootKeyexprInfo_ok h with ⟨-, rfl⟩ | ⟨_, _, -, -, rfl⟩
  · exact hkey
  · exact ⟨hkey.origin, hkey.leafKeys, hkey.leaf⟩

abbrev quietKinds : List Kind := [.session, .status, .markers, .keys, .nonces, .screen]

abbrev signKinds : List Kind := [.session, .status, .markers, .keys, .nonces, .screen, .signed]

abbrev DoesFrom (dev : Device σ) (g : GlobalState) (hashes : TxHashes) (J : World σ → Prop)
    (x : Sign σ α) : Prop :=
  WithinFrom J (KeysOk dev g) (Run dev g hashes signKinds) (fun _ => True) x

section

-- what is known when a signature is yielded, and stays so until then
variable {J : World σ → Prop} (hJ : ∀ w w', Run dev g hashes quietKinds w w' → J w → J w')

include hJ

theorem Does.keeps {x : Sign σ α} (h : Does dev g hashes quietKinds P x) :
    Within (fun w => KeysOk dev g w ∧ J w) (Run dev g hashes signKinds) P x :=
  (h.and_inv hJ).imp fun _ _ hrun => hrun.mono dev g signKinds (by simp)

theorem does_fetch_and {x : Fetch σ α} (h : SignReads dev g P x) :
    Within (fun w => KeysOk dev g w ∧ J w) (Run dev g hashes signKinds) P (fetch dev x) :=
  Does.keeps hJ (does_fetch h)

omit hJ in
theorem does_recordSigned (hsig : ∀ w, J w → Signable dev g hashes w sig) :
    DoesFrom dev g hashes J (record (.signed sig) : Sign σ Unit) :=
  WithinFrom.modify fun w hw hkeys => ⟨(Step.signed (hsig w hw)).run (by simp), hkeys⟩

omit hJ in
theorem does_yieldSignature (hsig : ∀ w, J w → Signable dev g hashes w sig)
    (hinput : sig.input < maxNInputsCanSign) (pubkey : Bytes) (tapleafHash : Option Bytes) (bytes : Bytes) :
    DoesFrom dev g hashes J (yieldSignature dev g sig pubkey tapleafHash bytes) := by
  refine .bind (does_recordSigned hsig) fun _ _ => ?_
  refine .bind (does_fetch (reads_call fun _ _ h => ?_)) fun _ _ => ?_
  · rw [List.append_assoc]
    exact h _ (.signature hinput _)
  exact does_fetch (reads_okOr _ _).steps

omit hJ in
theorem does_yieldMusigPartialSignature (hsig : ∀ w, J w → Signable dev g hashes w sig)
    (psig participantPk aggregatePubkey : Bytes) (tapleafHash : Option Bytes) :
    DoesFrom dev g hashes J
      (yieldMusigPartialSignature dev g sig psig participantPk aggregatePubkey tapleafHash) := by
  refine .ite (fun _ => ?_) fun _ => ?_
  · exact .of_within (does_fetch (reads_fail _))
  · refine .bind (does_recordSigned hsig) fun _ _ => ?_
    refine .bind (does_fetch (reads_call fun _ _ h => ?_)) fun _ _ => ?_
    · simp only [List.append_assoc]
      exact h _ (.musigPartialSignature _)
    exact does_fetch (reads_okOr _ _).steps

section

variable {key : KeyexprInfo} (hkey : KeyOk dev g key) {input : InputInfo} {index : Nat}
  {sighash : Sighash} (hindex : index < maxNInputsCanSign)

include hkey hindex

theorem does_signSighashEcdsaAndYield
    (hsig : ∀ w, J w → Signable dev g hashes w (key.signature .ecdsa input index sighash
      (key.keyDerivation ++ [key.keyExpr.changeStep input.inOut.isChange, input.inOut.addressIndex]))) :
    DoesFrom dev g hashes J (signSighashEcdsaAndYield dev g key input index sighash) := by
  refine .bind_stays (does_fetch_and hJ (reads_signPath hkey _)) fun path hpath => ?_
  refine .bind_stays (does_fetch_and hJ (reads_someOr _ _)) fun signed _ => ?_
  subst hpath
  exact does_yieldSignature hsig hindex _ _ _

theorem does_signSighashSchnorrAndYield (taptreeHash : Option Digest)
    (hsig : ∀ w, J w → Signable dev g hashes w (key.signature .schnorr input index sighash
      (key.keyDerivation ++ [key.keyExpr.changeStep input.inOut.isChange, input.inOut.addressIndex]))) :
    DoesFrom dev g hashes J (signSighashSchnorrAndYield dev g key input taptreeHash index sighash) := by
  refine .bind_stays (does_fetch_and hJ (reads_signPath hkey _)) fun path hpath => ?_
  refine .bind_stays (does_fetch_and hJ (reads_someOr _ _)) fun signed _ => ?_
  subst hpath
  exact does_yieldSignature hsig hindex _ _ _

omit hkey hindex in
theorem does_aggregateNonce (nonces : List Bytes) :
    Steps (fun w => KeysOk dev g w ∧ J w) (Run dev g hashes signKinds) (aggregateNonce dev nonces) := by
  unfold aggregateNonce
  refine .ite (fun _ => ?_) fun _ => .pure trivial
  exact .bind (Does.keeps hJ (does_sendStatus _ _)) fun _ _ => .pure trivial

omit hkey hindex in
theorem does_signSighashMusigAndYield (map : MerkleizedMapCommitment) (taptreeHash : Option Digest)
    (keyIndexes : List Nat)
    (hsig : ∀ w, J w → Signable dev g hashes w
      (key.signature .musigPartial input index sighash key.keyDerivation)) :
    DoesFrom dev g hashes J
      (signSighashMusigAndYield dev g hashes key map input taptreeHash index keyIndexes sighash) := by
  refine .bind_stays (P := fun _ => True) ?_ fun result _ =>
    does_yieldMusigPartialSignature hsig _ _ _ _
  refine .bind (does_fetch_and hJ (reads_gatherMusig _ _ map _ _ _ _)) fun gathered _ => ?_
  refine .bind (P := fun _ => True) ?_ fun psig _ => .pure trivial
  refine .bind (does_aggregateNonce hJ _) fun aggnonce _ => ?_
  refine .bind (does_fetch_and hJ (reads_someOr _ _)) fun secnonce _ => ?_
  exact does_fetch_and hJ (asks_partialSignature _ _ _ _ _).reads

end

end

section

variable {key : KeyexprInfo} (hkey : KeyOk dev g key) {map : MerkleizedMapCommitment}
  {input : InputInfo} {index : Nat} (hprepared : Prepared dev g key map input index)
  (hinputs : g.nInputs ≤ maxNInputsCanSign)

include hkey hprepared hinputs

theorem does_signLegacyInput (hinput : input.hasWitnessUtxo = false) :
    Does dev g hashes signKinds (fun _ => True) (signLegacyInput dev g key map input index) := by
  have hindex := hprepared.1.trans_le hinputs
  refine .bind_inv (does_fetch (reads_legacySighash map input key index))
    (J := fun result _ => ∃ s s', legacySighash dev g key map input index s = .ok result s')
    (fun w result w' _ h => ?_) fun result _ => ?_
  · obtain ⟨s, h, -⟩ := fetch_ok_iff.mp h
    exact ⟨_, s, h⟩
  · refine does_signSighashEcdsaAndYield (fun _ _ _ => id) hkey hindex fun w hsighash => ?_
    obtain ⟨s, s', hsighash⟩ := hsighash
    exact ⟨key, map, input, index, hprepared, .legacy hinput hsighash⟩

theorem does_signTaproot (hinput : input.hasWitnessUtxo) {internalKey : KeyExpr}
    {tree : Option (PolicyTree PolicyNode)} (hpolicy : g.policy = .tr internalKey tree)
    {input' : InputInfo} {script : Bytes}
    (hsegwit : ∃ s s', segwitInput dev g map input s = .ok (input', script) s') :
    Does dev g hashes signKinds (fun _ => True) (signTaproot dev g hashes key map input' index tree) := by
  have hindex := hprepared.1.trans_le hinputs
  refine .bind_inv (P := fun _ => True) ?_ (J := TaprootMessage dev g hashes key map input' index)
    (fun w sighash w' _ h => computeSighashSegwitv1_ok h) fun sighash _ => ?_
  · refine .bind (does_fetch (asks_segwitv1InputData map input' _).reads) fun _ _ => ?_
    refine .bind (does_fetch (reads_segwitv1SingleOutput input' _)) fun _ _ => ?_
    refine .bind (P := fun _ => True) ?_ fun _ _ => .pure trivial
    refine .ite (fun _ => ?_) fun _ => .pure trivial
    refine .bind does_getSt fun st _ => ?_
    refine .bind (does_fetch (reads_someOr _ _)) fun leafhash _ => ?_
    refine .bind (does_fetch (reads_checkOr _ _)) fun _ _ => ?_
    refine .ite (fun _ => ?_) fun _ => .pure trivial
    exact ((does_confirmOrDeny rfl).mono (by simp)).bind fun _ _ => .pure trivial
  · have hJ (w w' : World σ) (hrun : Run dev g hashes quietKinds w w')
        (h : TaprootMessage dev g hashes key map input' index sighash w) := h.run hrun (by simp)
    obtain ⟨s, s', hsegwit⟩ := hsegwit
    refine .bind_stays (does_fetch_and hJ (reads_signingTaptreeHash _ _ hpolicy)) fun taptreeHash _ => ?_
    split
    · refine does_signSighashSchnorrAndYield hJ hkey hindex taptreeHash fun w hmessage => ?_
      obtain ⟨inputData, singleOutput, extension, ⟨_, _, hdata⟩, ⟨_, _, hsingle⟩, hleaf, rfl⟩ := hmessage
      exact ⟨key, map, input, index, hprepared,
        .segwitv1 hinput hpolicy hsegwit hdata hsingle hleaf (.inl ⟨rfl, rfl⟩)⟩
    · refine does_signSighashMusigAndYield hJ map taptreeHash _ fun w hmessage => ?_
      obtain ⟨inputData, singleOutput, extension, ⟨_, _, hdata⟩, ⟨_, _, hsingle⟩, hleaf, rfl⟩ := hmessage
      exact ⟨key, map, input, index, hprepared,
        .segwitv1 hinput hpolicy hsegwit hdata hsingle hleaf (.inr ⟨rfl, rfl⟩)⟩
    · exact .of_within (does_fetch reads_undefinedBehaviour)

theorem does_signSegwitInput (hinput : input.hasWitnessUtxo) :
    Does dev g hashes signKinds (fun _ => True) (signSegwitInput dev g hashes key map input index) := by
  have hindex := hprepared.1.trans_le hinputs
  refine .bind_run (does_fetch (asks_segwitInput map input).reads) fun result w w' _ h => ?_
  obtain ⟨s', hsegwit, -⟩ := fetch_ok_iff.mp h
  refine .ite (fun hpolicy => ?_) fun _ => ?_
  · refine .bind_inv (does_fetch (reads_segwitv0Sighash map result.1 hashes key result.2 index))
      (J := fun sighash _ => ∃ s s',
        segwitv0Sighash dev g hashes key map result.1 result.2 index s = .ok sighash s')
      (fun w sighash w' _ h => ?_) fun sighash _ => ?_
    · obtain ⟨s, h, -⟩ := fetch_ok_iff.mp h
      exact ⟨_, s, h⟩
    · refine does_signSighashEcdsaAndYield (fun _ _ _ => id) hkey hindex fun w hsighash => ?_
      obtain ⟨t, t', hsighash⟩ := hsighash
      exact ⟨key, map, input, index, hprepared, .segwitv0 hinput hpolicy hsegwit hsighash⟩
  · split
    · next internalKey tree hpolicy =>
        exact does_signTaproot hkey hprepared hinputs hinput hpolicy ⟨_, _, hsegwit⟩
    · exact does_fetch (reads_fail _)

theorem does_signTransactionInput : Does dev g hashes signKinds (fun _ => True)
      (signTransactionInput dev g hashes key map input index) :=
  Within.ite (fun hinput => does_signSegwitInput hkey hprepared hinputs hinput)
    fun hinput => does_signLegacyInput hkey hprepared hinputs (by simpa using hinput)

end

theorem does_getKeyexpr (i : Nat) : Does dev g hashes signKinds (KeyOk dev g) (getKeyexpr dev i) := by
  refine .bind does_getSt fun st hst => ?_
  split
  · next key hkey => exact .pure (hst key (List.mem_of_getElem? hkey))
  · exact does_fetch reads_undefinedBehaviour

theorem does_setKeyexpr (i : Nat) (hkey : KeyOk dev g key) :
    Does dev g hashes signKinds (fun _ => True) (setKeyexpr i key : Sign σ Unit) := by
  refine does_setKeys (by simp) fun w hw key' hkey' => ?_
  rcases List.mem_or_eq_of_mem_set hkey' with hmem | rfl
  · exact hw.1 key' hmem
  · exact hkey

theorem does_signInputWithKey (hinputs : g.nInputs ≤ maxNInputsCanSign) (i : Nat) {index : Nat}
    (hindex : index < g.nInputs) :
    Does dev g hashes signKinds (fun _ => True) (signInputWithKey dev g hashes i index) := by
  refine .bind_run ((does_readInput index).mono (by simp)) fun read w w' hw hread => ?_
  refine .bind (does_fetch (reads_someOr _ read)) fun result hresult => ?_
  refine .bind (does_getKeyexpr i) fun key0 hkey0 => ?_
  refine .bind_run (does_fetch (reads_fillTaprootKeyexprInfo hkey0 _)) fun key w1 w1' hw1 hkey => ?_
  obtain ⟨s', hkey, -⟩ := fetch_ok_iff.mp hkey
  have hok := hkey0.fillTaproot hkey
  refine .bind (does_setKeyexpr i hok) fun _ _ => ?_
  refine does_signTransactionInput hok ⟨hindex, ⟨w, w', hw, ?_⟩, key0, _, s', hkey0, hw1.2, hkey⟩ hinputs
  rw [hread, hresult]

theorem does_signWithKey (hinputs : g.nInputs ≤ maxNInputsCanSign) (i : Nat) :
    Does dev g hashes signKinds (fun _ => True) (signWithKey dev g hashes i) := by
  refine .bind (does_getKeyexpr i) fun key hkey => ?_
  refine .bind ((does_fillKeyexprInfoIfInternal key hkey.origin).mono (by simp)) fun result hresult => ?_
  refine .bind (does_setKeyexpr i (hresult.keyOk hkey)) fun _ _ => ?_
  exact does_forIndices _ _ fun index _ hindex => does_signInputWithKey hinputs i (by omega)

theorem does_signTransaction (hinputs : g.nInputs ≤ maxNInputsCanSign) :
    Does dev g hashes signKinds (fun _ => True) (signTransaction dev g hashes) :=
  does_getSt.bind fun _ _ => does_forIndices _ _ fun i _ _ => does_signWithKey hinputs i

end LedgerBabylon
