import LedgerBabylon.Handler.SignPsbt.LeafHash

/-!
# The user's consent

A signature is preceded by the screens of the transaction, and the user has accepted each of them. Which
screens these are depends on the flow; the last one shows the fee. Neither the amounts nor the warnings
change between these screens and the end of the run.
-/

namespace LedgerBabylon

open Exec List

variable {σ α β : Type} {dev : Device σ} {g : GlobalState} {hashes : TxHashes} {kinds : List Kind}

variable {st : SignPsbtState} {w w' : World σ} {screen : Screen} {screens : List Screen} {sig : Signature}
  {before after : List Event}

def Event.outputRead? : Event → Option OutputRead
  | .outputRead output => some output
  | _ => none

def outputsRead (trace : List Event) : List OutputRead := trace.filterMap Event.outputRead?

def externalOutputs (outputs : List OutputRead) : List OutputRead := outputs.filter (! ·.isInternal)

/-- The external outputs are counted, and the first two are kept for the screens. -/
structure SignPsbtState.Counts (st : SignPsbtState) (outputs : List OutputRead) : Prop where
  external : st.nExternalOutputs = (externalOutputs outputs).length
  cached : st.outputs.cached.map (fun kept => (Except.ok kept.1, kept.2)) =
    ((externalOutputs outputs).take nCachedExternalOutputs).map fun output => (output.script, output.amount)

/-- The script and the amount on the screen of an external output were read before or, where they are
not kept, are those that the client gives for the index once more. -/
structure OutputShown (dev : Device σ) (g : GlobalState) (index count : Nat) (output : OutputRead)
    (script : Bytes) (amount : UInt64) : Prop where
  cached : count < nCachedExternalOutputs → output.script = .ok script ∧ output.amount = amount
  fetched : nCachedExternalOutputs ≤ count →
    ∃ s s', getOutputScriptAndAmount dev g index s = .ok (script, amount) s'

/-- One screen for each external output, in their order. -/
inductive OutputScreens (dev : Device σ) (g : GlobalState) (nExternalOutputs : Nat) :
    Nat → Nat → List OutputRead → List Screen → Prop
  | nil {index count : Nat} : OutputScreens dev g nExternalOutputs index count [] []
  | internal {index count : Nat} {output : OutputRead} {outputs : List OutputRead} {screens : List Screen}
      (h : output.isInternal)
      (hrest : OutputScreens dev g nExternalOutputs (index + 1) count outputs screens) :
      OutputScreens dev g nExternalOutputs index count (output :: outputs) screens
  | external {index count : Nat} {output : OutputRead} {outputs : List OutputRead} {screens : List Screen}
      {script description : Bytes} {amount : UInt64} (h : output.isInternal = false)
      (hshown : OutputShown dev g index count output script amount)
      (hdescription : dev.formatScript script = some description)
      (hrest : OutputScreens dev g nExternalOutputs (index + 1) (count + 1) outputs screens) :
      OutputScreens dev g nExternalOutputs index count (output :: outputs)
        (.validateOutput (count + 1) nExternalOutputs description amount :: screens)

def screenIf (cond : Bool) (screen : Screen) : List Screen := if cond then [screen] else []

def warningScreens (warnings : Warnings) : List Screen :=
  screenIf warnings.missingNonwitnessutxo .warnUnverifiedSegwitInputs ++
    screenIf warnings.nonDefaultSighash .warnNondefaultSighash

/-- The screens of each flow, for the outputs that were read. Only some actions of the full flow show
the outputs. -/
inductive TransactionScreens (dev : Device σ) (g : GlobalState) (st : SignPsbtState)
    (outputs : List OutputRead) : List Screen → Prop
  | nothingSent (h : dev.nbgl) (houtputs : externalOutputs outputs = []) : TransactionScreens dev g st outputs
        [.validateTransactionSimplified g.header.name 0 none st.warnings st.fee]
  | oneOutput {output : OutputRead} {script description : Bytes} (h : dev.nbgl)
      (houtputs : externalOutputs outputs = [output]) (hscript : output.script = .ok script)
      (hdescription : dev.formatScript script = some description) :
      TransactionScreens dev g st outputs [.validateTransactionSimplified g.header.name output.amount
        (some description) st.warnings st.fee]
  | selfTransfer (h : !dev.nbgl) (houtputs : externalOutputs outputs = []) :
      TransactionScreens dev g st outputs
        (warningScreens st.warnings ++ (screenIf st.warnings.highFee .warnHighFee ++
          [.validateTransaction st.fee true]))
  | full {screens : List Screen} (h : 0 ≤ (getActionStep g.header.name).step)
      (houtputs : if 2 < (getActionStep g.header.name).step then
        OutputScreens dev g (externalOutputs outputs).length 0 0 outputs screens else screens = []) :
      TransactionScreens dev g st outputs
        (screenIf dev.nbgl .transactionPrompt ++ (.authorizeWalletSpend g.header.name ::
          (warningScreens st.warnings ++ ((st.psbtFinalityPk.map .confirmFinalityPk).toList ++ (screens ++
            (screenIf st.warnings.highFee .warnHighFee ++ [.validateTransaction st.fee false]))))))

/-- A program that comes to its end has had accepted screens that satisfy a condition, and has done
nothing else to the state and the trace. -/
def Accepts (st : SignPsbtState) (Q : List Screen → Prop) (x : Sign σ α) : Prop :=
  ∀ ⦃w a w'⦄, x w = .ok a w' → w.st = st → ∃ s screens, Q screens ∧
    w' = World.append { w with session := s } (screens.map (.shown · st.warnings true))

section

variable {P Q : List Screen → Prop} {x : Sign σ α}

theorem Accepts.bind {f : α → Sign σ β} (hx : Accepts st P x)
    (hf : ∀ a screens, P screens → Accepts st (fun rest => Q (screens ++ rest)) (f a)) :
    Accepts st Q (x >>= f) := by
  intro w b w' h hw
  obtain ⟨a, w1, ha, hb⟩ := bind_ok h
  obtain ⟨s, screens, hscreens, rfl⟩ := hx ha hw
  obtain ⟨s', rest, hrest, rfl⟩ := hf a screens hscreens hb hw
  exact ⟨s', screens ++ rest, hrest, by simp [World.append]⟩

theorem Accepts.next {f : α → Sign σ β} (hx : Accepts st (· = screens) x)
    (hf : ∀ a, Accepts st (fun rest => Q (screens ++ rest)) (f a)) : Accepts st Q (x >>= f) := by
  refine hx.bind ?_
  rintro a _ rfl
  exact hf a

theorem Accepts.last (hx : Accepts st (· = screens) x) (h : Q screens) : Accepts st Q x := by
  intro w a w' hok hw
  obtain ⟨s, _, hscreens, rfl⟩ := hx hok hw
  exact ⟨s, _, hscreens ▸ h, rfl⟩

theorem Accepts.getSt_bind {f : SignPsbtState → Sign σ α} (h : Accepts st Q (f st)) :
    Accepts st Q (getSt >>= f) := by
  rintro w a w' hok rfl
  exact h hok rfl

end

theorem accepts_pure (a : α) : Accepts st (· = []) (pure a : Sign σ α) := by
  intro w b w' h _
  obtain ⟨-, rfl⟩ := pure_ok h
  exact ⟨w.session, [], rfl, by simp [World.append]⟩

theorem accepts_confirmOrDeny : Accepts st (· = [screen]) (confirmOrDeny dev screen) := by
  rintro w a w' h rfl
  obtain ⟨s, rfl⟩ := confirmOrDeny_ok h
  exact ⟨s, [screen], rfl, rfl⟩

theorem accepts_confirmIf (cond : Bool) :
    Accepts st (· = screenIf cond screen) (confirmIf dev cond screen) := by
  cases cond with
  | true => exact accepts_confirmOrDeny
  | false => exact accepts_pure ()

theorem accepts_displayWarnings : Accepts st (· = warningScreens st.warnings) (displayWarnings dev) :=
  .getSt_bind <| (accepts_confirmIf _).next fun _ => (accepts_confirmIf _).last rfl

theorem accepts_displayFinalityPk :
    Accepts st (· = (st.psbtFinalityPk.map .confirmFinalityPk).toList) (displayFinalityPk dev) := by
  refine .getSt_bind ?_
  cases st.psbtFinalityPk with
  | none => exact accepts_pure ()
  | some pk => exact accepts_confirmOrDeny

theorem accepts_authorizeWalletSpend : Accepts st (fun l => l = [.authorizeWalletSpend g.header.name] ∧
      0 ≤ (getActionStep g.header.name).step) (authorizeWalletSpend dev g) := by
  intro w a w' h hw
  obtain ⟨_, w1, hcheck, h⟩ := bind_ok h
  obtain ⟨hstep, rfl⟩ := fetch_checkOr_ok_iff.mp hcheck
  obtain ⟨s, _, rfl, rfl⟩ := accepts_confirmOrDeny h hw
  exact ⟨s, _, ⟨rfl, by simpa using hstep⟩, rfl⟩

section

variable {index count : Nat} {output : OutputRead} {outputs : List OutputRead} {script : Bytes}
  {amount : UInt64}

theorem externalOutput_ok (h : externalOutput dev g index count w = .ok (script, amount) w')
    (hcached : (w.st.outputs.cached.map fun kept => (Except.ok kept.1, kept.2)).drop count =
      ((output :: outputs).take (nCachedExternalOutputs - count)).map fun o => (o.script, o.amount)) :
    OutputShown dev g index count output script amount ∧ ∃ s, w' = { w with session := s } := by
  obtain ⟨_, _, hst, h⟩ := bind_ok h
  cases hst
  by_cases hcount : count < nCachedExternalOutputs
  · obtain ⟨n, hn⟩ := Nat.exists_eq_add_of_lt (Nat.sub_pos_of_lt hcount)
    have hkept := congrArg head? hcached
    rw [hn, Nat.zero_add, head?_drop, getElem?_map] at hkept
    obtain ⟨kept, hkept, heq⟩ := Option.map_eq_some_iff.mp hkept
    obtain ⟨hscript, hamount⟩ := Prod.mk.inj heq
    rw [hkept] at h
    cases h
    exact ⟨⟨fun _ => ⟨hscript.symm, hamount.symm⟩, fun hle => by omega⟩, w.session, rfl⟩
  · have hnone : w.st.outputs.cached[count]? = none := by
      rw [Nat.sub_eq_zero_of_le (by omega), take_zero, map_nil, drop_eq_nil_iff, length_map] at hcached
      exact getElem?_eq_none hcached
    rw [hnone] at h
    dsimp only [alsoSend] at h
    split at h
    · obtain ⟨_, _, _, h⟩ := bind_ok h
      simp at h
    · obtain ⟨s, hfetched, rfl⟩ := fetch_ok_iff.mp h
      exact ⟨⟨fun hlt => absurd hlt hcount, fun _ => ⟨_, _, hfetched⟩⟩, s, rfl⟩

theorem displayOutput_ok (h : displayOutput dev count script amount w = .ok () w') :
    ∃ s description, dev.formatScript script = some description ∧ w' = World.append { w with session := s }
        [.shown (.validateOutput count w.st.nExternalOutputs description amount) w.st.warnings true] := by
  obtain ⟨description, w1, hformat, h⟩ := bind_ok h
  obtain ⟨hdescription, rfl⟩ := fetch_someOr_ok_iff.mp hformat
  obtain ⟨_, _, hst, h⟩ := bind_ok h
  cases hst
  obtain ⟨s, rfl⟩ := confirmOrDeny_ok h
  exact ⟨s, description, hdescription, rfl⟩

theorem accepts_displayExternalOutputsLoop
    (hcached : (st.outputs.cached.map fun kept => (Except.ok kept.1, kept.2)).drop count =
      ((externalOutputs outputs).take (nCachedExternalOutputs - count)).map
        fun output => (output.script, output.amount)) :
    Accepts st (OutputScreens dev g st.nExternalOutputs index count outputs)
      (displayExternalOutputsLoop dev g (outputs.map (·.isInternal)) index count) := by
  induction outputs generalizing index count with
  | nil => exact (accepts_pure ()).last .nil
  | cons output outputs ih =>
    cases hinternal : output.isInternal with
    | true =>
      have hrest : externalOutputs (output :: outputs) = externalOutputs outputs := by
        simp [externalOutputs, hinternal]
      rw [map_cons, hinternal]
      intro w a w' h hw
      obtain ⟨s, screens, hscreens, rfl⟩ := ih (hrest ▸ hcached) h hw
      exact ⟨s, screens, .internal hinternal hscreens, rfl⟩
    | false =>
      have hrest : externalOutputs (output :: outputs) = output :: externalOutputs outputs := by
        simp [externalOutputs, hinternal]
      rw [hrest] at hcached
      rw [map_cons, hinternal]
      rintro w a w' h rfl
      obtain ⟨⟨script, amount⟩, w1, hfetched, h⟩ := bind_ok h
      obtain ⟨hshown, s1, rfl⟩ := externalOutput_ok hfetched hcached
      obtain ⟨_, w2, hdisplay, h⟩ := bind_ok h
      obtain ⟨s2, description, hdescription, rfl⟩ := displayOutput_ok hdisplay
      have hnext := congrArg (drop 1) hcached
      rw [drop_drop, ← map_drop, ← map_drop, drop_take, drop_succ_cons,
        drop_zero, Nat.sub_sub, map_drop] at hnext
      obtain ⟨s, screens, hscreens, rfl⟩ := ih hnext h rfl
      exact ⟨s, _, .external hinternal hshown hdescription hscreens, by simp [World.append]⟩

theorem accepts_displayFull (hst : st.Counts outputs) : Accepts st (TransactionScreens dev g st outputs)
      (displayFull dev g st (outputs.map (·.isInternal))) := by
  refine (accepts_confirmIf _).next fun _ => ?_
  refine accepts_authorizeWalletSpend.bind ?_
  rintro _ _ ⟨rfl, hstep⟩
  refine accepts_displayWarnings.next fun _ => ?_
  refine accepts_displayFinalityPk.next fun _ => ?_
  refine .bind (P := fun screens => if 2 < (getActionStep g.header.name).step then
    OutputScreens dev g (externalOutputs outputs).length 0 0 outputs screens else screens = []) ?_ ?_
  · unfold displayOutputsOfAction
    split
    · rw [← hst.external]
      exact accepts_displayExternalOutputsLoop hst.cached
    · exact accepts_pure ()
  · intro _ screens hscreens
    exact (accepts_confirmIf _).next fun _ => accepts_confirmOrDeny.last (.full hstep hscreens)

theorem accepts_displaySimplified (hst : st.Counts outputs) (h : dev.nbgl)
    (hone : st.nExternalOutputs = 0 ∨ st.nExternalOutputs = 1) :
    Accepts st (TransactionScreens dev g st outputs) (displaySimplified dev g st) := by
  rcases hone with hone | hone
  · have hnone := length_eq_zero_iff.mp (hst.external.symm.trans hone)
    rw [displaySimplified, if_pos hone]
    exact accepts_confirmOrDeny.last (.nothingSent h hnone)
  · obtain ⟨output, houtput⟩ := length_eq_one_iff.mp (hst.external.symm.trans hone)
    have hcached := hst.cached
    rw [houtput] at hcached
    obtain ⟨⟨script, amount⟩, hcached, hkept⟩ := map_eq_singleton_iff.mp hcached
    obtain ⟨hscript, hamount⟩ := Prod.mk.inj hkept
    rw [displaySimplified, if_neg (by omega), hcached]
    intro w a w' hok hw
    obtain ⟨description, w1, hformat, hok⟩ := bind_ok hok
    obtain ⟨hdescription, rfl⟩ := fetch_someOr_ok_iff.mp hformat
    obtain ⟨s, _, rfl, rfl⟩ := accepts_confirmOrDeny hok hw
    have hamount' : amount = output.amount := hamount
    exact ⟨s, _, hamount' ▸ .oneOutput h houtput hscript.symm hdescription, rfl⟩

theorem accepts_displayChosen (hst : st.Counts outputs) : Accepts st (TransactionScreens dev g st outputs)
      (displayChosen dev g (outputs.map (·.isInternal)) st) := by
  unfold displayChosen
  split
  · next h => exact accepts_displaySimplified hst h.1 h.2
  · split
    · next h =>
        have hnone := length_eq_zero_iff.mp (hst.external.symm.trans h.2)
        refine accepts_displayWarnings.next fun _ => (accepts_confirmIf _).next fun _ => ?_
        exact accepts_confirmOrDeny.last (.selfTransfer h.1 hnone)
    · exact accepts_displayFull hst

theorem copyScript_ok {script : Except Int Bytes} {bytes : Bytes} {s s' : Session σ}
    (h : copyScript script s = .ok bytes s') : script = .ok bytes := by
  cases script with
  | error code =>
    obtain ⟨_, _, -, h⟩ := bind_ok h
    simp at h
  | ok script =>
    obtain ⟨_, _, -, h⟩ := bind_ok h
    obtain ⟨rfl, -⟩ := pure_ok h
    rfl

theorem SignPsbtState.Counts.note (hw : w.st.Counts outputs) (h : noteOutput dev output w = .ok () w') :
    w'.st.Counts (outputs ++ [output]) ∧ w'.trace = w.trace := by
  have hlen := congrArg length hw.cached
  rw [length_map, length_map, length_take] at hlen
  unfold noteOutput at h
  split at h
  · next hinternal =>
      have hrest : externalOutputs (outputs ++ [output]) = externalOutputs outputs := by
        simp [externalOutputs, hinternal]
      cases h
      exact ⟨⟨hrest ▸ hw.external, hrest ▸ hw.cached⟩, rfl⟩
  · next hexternal =>
      have hrest : externalOutputs (outputs ++ [output]) = externalOutputs outputs ++ [output] := by
        simp [externalOutputs, hexternal]
      obtain ⟨_, w1, hcache, h⟩ := bind_ok h
      cases h
      obtain ⟨_, _, hst, hcache⟩ := bind_ok hcache
      cases hst
      split at hcache
      · next hroom =>
          obtain ⟨script, w2, hcopy, hcache⟩ := bind_ok hcache
          obtain ⟨s, hscript, rfl⟩ := fetch_ok_iff.mp hcopy
          cases hcache
          have hfew : (externalOutputs outputs).length < nCachedExternalOutputs := by omega
          have hcached := hw.cached
          rw [take_of_length_le (by omega)] at hcached
          refine ⟨⟨by simp [hrest, hw.external], ?_⟩, rfl⟩
          rw [hrest, take_of_length_le (by simpa using Nat.succ_le_of_lt hfew), map_append, map_append,
            hcached, map_singleton, map_singleton, copyScript_ok hscript]
      · next hfull =>
          obtain ⟨-, rfl⟩ := pure_ok hcache
          refine ⟨⟨by simp [hrest, hw.external], ?_⟩, rfl⟩
          rw [hrest, take_append_of_le_length (by omega)]
          exact hw.cached

end

/-- The outputs of the trace are counted, and it is known which of them are internal. -/
structure World.Noted (w : World σ) (internal : List Bool) : Prop where
  internal : internal = (outputsRead w.trace).map (·.isInternal)
  counts : w.st.Counts (outputsRead w.trace)

theorem Run.outputs_eq (h : Run dev g hashes kinds w w')
    (hkinds : .output ∉ kinds ∧ .outputAmount ∉ kinds ∧ .reset ∉ kinds) :
    outputsRead w'.trace = outputsRead w.trace ∧ w'.st.outputs = w.st.outputs ∧
    w'.st.nExternalOutputs = w.st.nExternalOutputs := by
  refine h.induction (J := fun v => outputsRead v.trace = outputsRead w.trace ∧
    v.st.outputs = w.st.outputs ∧ v.st.nExternalOutputs = w.st.nExternalOutputs) ?_ ⟨rfl, rfl, rfl⟩
  intro kind hkind v v' hstep hv
  cases hstep with
  | output | outputRead | outputAmount | resetOutputs => simp [hkind] at hkinds
  | session | keys | nonces | externalInput | warning | highFee => exact hv
  | _ => exact ⟨by simpa [outputsRead, World.append, filterMap_cons, Event.outputRead?] using hv.1, hv.2⟩

theorem World.Noted.of_run {internal : List Bool} (h : w.Noted internal) (hrun : Run dev g hashes kinds w w')
    (hkinds : .output ∉ kinds ∧ .outputAmount ∉ kinds ∧ .reset ∉ kinds) : w'.Noted internal := by
  obtain ⟨hread, houtputs, hexternal⟩ := hrun.outputs_eq hkinds
  exact ⟨hread ▸ h.internal, ⟨by rw [hexternal, hread, h.counts.external], by
    rw [houtputs, hread, h.counts.cached]⟩⟩

theorem OutputProcessed.noted {index : Nat} {internal internal' : List Bool} (hashes : TxHashes)
    (h : OutputProcessed dev g index internal w internal' w') (hkeys : KeysOk dev g w)
    (hw : w.Noted internal) : w'.Noted internal' := by
  obtain @⟨map, inOut, raw, output, w1, s1, s2, s3, hread, hamount, houtput, hset, hnote⟩ := h
  have hdoes : Does dev g hashes fetchKinds (fun _ => True)
      (callGetMerkleizedMapWithCallback dev g.outputsRoot g.nOutputs index (outputKeysCallback dev)
        .zero) := does_readOutputMap index
  have hw1 := hw.of_run (hdoes.run_ok hread hkeys).1 (by simp)
  obtain ⟨-, rfl, -⟩ := setInternalOutput_ok hset
  have hcounts : (w1.noteOutputRead output s3).st.Counts (outputsRead w1.trace) :=
    ⟨hw1.counts.external, hw1.counts.cached⟩
  obtain ⟨hnoted, htrace⟩ := hcounts.note hnote
  have houtputs : outputsRead w'.trace = outputsRead w1.trace ++ [output] := by
    simp [htrace, World.noteOutputRead, outputsRead, filterMap_cons, Event.outputRead?]
  exact ⟨by simp [houtputs, hw1.internal], houtputs ▸ hnoted⟩

def Warned (w : World σ) : Prop := ∀ input type, .sighashAccepted input type ∈ w.trace → needsWarning type →
    w.st.warnings.nonDefaultSighash

theorem Step.warned {kind : Kind} (h : Step dev g hashes kind w w') (hw : Warned w) : Warned w' := by
  intro input type hmem htype
  cases h with
  | warning h => exact h (hw input type hmem htype)
  | sighashAccepted h =>
    rcases mem_append.mp hmem with hmem | hmem
    · exact hw input type hmem htype
    · cases mem_singleton.mp hmem
      exact h htype
  | _ => exact hw input type (by simpa [World.append] using hmem) htype

theorem Run.agreed_eq (h : Run dev g hashes signKinds w w') :
    w'.st.warnings = w.st.warnings ∧ w'.st.fee = w.st.fee := by
  refine h.induction (J := fun v => v.st.warnings = w.st.warnings ∧ v.st.fee = w.st.fee) ?_ ⟨rfl, rfl⟩
  intro kind hkind v v' hstep hv
  cases hstep <;> first | exact hv | simp at hkind

def Event.finalityPk? : Event → Option Bytes
  | .finalityPkRead pk => some pk
  | _ => none

/-- The key of the finality provider is the last one read. -/
def FinalityRead (w : World σ) : Prop := w.st.psbtFinalityPk = (w.trace.filterMap Event.finalityPk?).getLast?

theorem Step.finalityRead {kind : Kind} (h : Step dev g hashes kind w w') (hw : FinalityRead w) :
    FinalityRead w' := by
  cases h with
  | session | keys | nonces | externalInput | warning | resetOutputs | output | highFee => exact hw
  | finality => simp [FinalityRead, World.append, Event.finalityPk?]
  | _ => simpa [FinalityRead, World.append, Event.finalityPk?] using hw

/-- What precedes a signature of a run with this state at its end: all that is prepared, the screens for
the outputs read until then, and no other screen. -/
inductive Consent (dev : Device σ) (g : GlobalState) (final : SignPsbtState) : List Event → Prop
  | mk {earlier since : List Event} {template : Bytes} {st : SignPsbtState}
      {screens : List Screen} (hpolicy : .policyRead g.header.name template ∈ earlier)
      (hearlier : ∀ e ∈ earlier, e.kind ∈ prepareKinds)
      (hscreens : TransactionScreens dev g st (outputsRead earlier) screens)
      (hfinality : st.psbtFinalityPk = (earlier.filterMap Event.finalityPk?).getLast?)
      (hwarned : ∀ input type, .sighashAccepted input type ∈ earlier → needsWarning type →
        st.warnings.nonDefaultSighash)
      (hfinal : final.warnings = st.warnings ∧ final.fee = st.fee)
      (hsince : ∀ e ∈ since, e.kind ∈ signKinds) :
      Consent dev g final (earlier ++ screens.map (.shown · st.warnings true) ++ since)

section

variable {protocolVersion : Nat} {raw : Bytes} {env : σ}

theorem Preparation.policyRead_mem (p : Preparation dev protocolVersion raw env) :
    ∃ template, .policyRead p.g.header.name template ∈ p.prepared.trace := by
  obtain ⟨fields, wallet, fingerprint, _, _, s, -, -, -, hg, hw⟩ := initGlobalState_ok p.init_ok
  refine ⟨wallet.template, ?_⟩
  have hinputs := (p.run_inputs default).1.mono dev p.g prepareKinds (by simp)
  have houtputs := (p.run_outputs default).1.mono dev p.g prepareKinds (by simp)
  have hhashed := (p.run_hashed default).1.mono dev p.g prepareKinds (by simp)
  obtain ⟨events, htrace, -⟩ := (Evolution.trans hinputs (Evolution.trans houtputs hhashed)).events
  rw [htrace, hg]
  refine mem_append_left events ?_
  simp [Initialised.start, hw, World.append]

theorem Preparation.noted (p : Preparation dev protocolVersion raw env) :
    p.prepared.Noted p.internalOutputs := by
  obtain ⟨v, s, hloop, -, -, houtputs⟩ := preprocessOutputs_ok p.outputs_ok
  have hkeys := (p.run_inputs p.txHashes).2
  have hnone : outputsRead p.inputs.trace = [] := by
    rw [((p.run_inputs p.txHashes).1.outputs_eq (by simp)).1,
      ((p.toInitialised.run p.txHashes).1.outputs_eq (by simp)).1]
    rfl
  have hnoted := preprocessOutputsLoop_ok
    (J := fun _ internal u => KeysOk dev p.g u ∧ u.Noted internal) hloop ?_
    ⟨hkeys, ⟨by simp [hnone], by simp [hnone, externalOutputs], by simp [hnone, externalOutputs]⟩⟩
  · have houtputs' : p.outputs.Noted p.internalOutputs := by
      rw [houtputs]
      exact ⟨hnoted.2.internal, hnoted.2.counts⟩
    exact houtputs'.of_run (p.run_hashed p.txHashes).1 (by simp)
  · rintro i internal u internal' u' - hi hround ⟨hu, hnoted⟩
    have hdoes : Does dev p.g p.txHashes outputsKinds (fun _ => True)
        (preprocessOutput dev p.g i internal) := does_preprocessOutput (by omega) internal
    exact ⟨(hdoes.run_ok hround hu).2.1, (preprocessOutput_ok hround).noted p.txHashes hu hnoted⟩

end

end LedgerBabylon
