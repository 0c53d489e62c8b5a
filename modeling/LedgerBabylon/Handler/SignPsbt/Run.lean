import LedgerBabylon.Handler.SignPsbt.Signing

/-!
# Whole runs

A run ends in one of a few phases: before the policy is read, while inputs and outputs are read, while
the transaction is shown, or while it is signed. Each earlier phase has then succeeded, and the steps
since are of the kinds of the phase.
-/

namespace LedgerBabylon

open Exec List

variable {α : Type} {e : Event} {sig : Signature} {before after : List Event}

variable {σ : Type} {dev : Device σ} {g : GlobalState} {hashes : TxHashes}

variable {x : Fetch σ α} {w w' : World σ} {kinds : List Kind} {trace : List Event}

theorem does_initGlobalState (protocolVersion : Nat) (req : SignPsbtRequest) :
    Does dev g hashes [.session, .status, .policy] (fun _ => True)
      (initGlobalState dev protocolVersion req) := by
  refine .bind (does_fetch (asks_readGlobalMap _).reads) fun fields _ => ?_
  refine .bind (does_fetch (asks_fetchWalletPolicy _).reads) fun wallet _ => ?_
  refine .bind (does_record .policy (by simp) fun _ => .policyRead) fun _ _ => ?_
  refine .bind (does_fetch asks_masterFingerprint.reads) fun _ _ => ?_
  exact .pure trivial

abbrev UsesNothing (w w' : World σ) : Prop := w'.session.uses = w.session.uses

instance : Evolution (UsesNothing : World σ → World σ → Prop) := ⟨fun _ => rfl, fun h h' => h'.trans h⟩

theorem usesNothing_callIgnored (x : Ask σ α) : Steps (fun _ => True) UsesNothing (callIgnored x) := by
  intro w _
  unfold callIgnored
  cases x w.session.env with
  | ok a e => exact ⟨rfl, trivial, trivial⟩
  | error fault e =>
    cases fault with
    | ret code => exact ⟨rfl, trivial, trivial⟩
    | _ => exact ⟨rfl, trivial⟩

theorem usesNothing_abort {P : α → Prop} (failure : Failure) :
    Within (fun _ => True) UsesNothing P (abort dev failure : Sign σ α) := by
  cases failure with
  | status sw ec =>
    refine .bind (P := fun _ => True) ?_ fun _ _ => Within.throw
    exact (usesNothing_callIgnored _).bind fun _ _ => Within.modify fun _ _ => ⟨rfl, trivial⟩
  | silent | fault => exact .throw

theorem usesNothing_fetch (h : Asks dev x) : Steps (fun _ => True) UsesNothing (fetch dev x) := by
  intro w _
  unfold fetch
  cases hx : x w.session with
  | ok a s =>
    obtain ⟨⟨e, rfl, -⟩, -⟩ := h.ok trivial hx
    exact ⟨rfl, trivial, trivial⟩
  | error failure s =>
    obtain ⟨⟨e, rfl, -⟩, -⟩ := h.error trivial hx
    exact Ending.after rfl (usesNothing_abort failure { w with session := _ } trivial)

theorem usesNothing_initGlobalState (protocolVersion : Nat) (req : SignPsbtRequest) :
    Steps (fun _ => True) UsesNothing (initGlobalState dev protocolVersion req) := by
  refine .bind (usesNothing_fetch (asks_readGlobalMap _)) fun fields _ => ?_
  refine .bind (usesNothing_fetch (asks_fetchWalletPolicy _)) fun wallet _ => ?_
  refine .bind (Within.modify fun _ _ => ⟨rfl, trivial⟩) fun _ _ => ?_
  refine .bind (usesNothing_fetch asks_masterFingerprint) fun _ _ => ?_
  exact .pure trivial

theorem initGlobalState_ok {protocolVersion : Nat} {req : SignPsbtRequest}
    (h : initGlobalState dev protocolVersion req w = .ok g w') :
    ∃ fields wallet fingerprint s1 s2 s3, readGlobalMap dev req.globalMap w.session = .ok fields s1 ∧
      fetchWalletPolicy dev req.walletId s1 = .ok wallet s2 ∧
      masterFingerprint dev s2 = .ok fingerprint s3 ∧
      g = ⟨protocolVersion, fingerprint, fields.1, fields.2, req.nInputs, req.inputsRoot, req.nOutputs,
        req.outputsRoot, wallet.header, dev.asRead wallet.policy⟩ ∧
      w' = World.append { w with session := s3 } [.policyRead wallet.header.name wallet.template] := by
  obtain ⟨fields, w1, hfields, h⟩ := bind_ok h
  obtain ⟨s1, hfields', rfl⟩ := fetch_ok_iff.mp hfields
  obtain ⟨wallet, w2, hwallet, h⟩ := bind_ok h
  obtain ⟨s2, hwallet', rfl⟩ := fetch_ok_iff.mp hwallet
  obtain ⟨_, w3, hrecord, h⟩ := bind_ok h
  cases hrecord
  obtain ⟨fingerprint, w4, hfingerprint, h⟩ := bind_ok h
  obtain ⟨s4, hfingerprint', rfl⟩ := fetch_ok_iff.mp hfingerprint
  obtain ⟨rfl, rfl⟩ := pure_ok h
  exact ⟨fields, wallet, fingerprint, s1, s2, s4, hfields', hwallet', hfingerprint', rfl, rfl⟩

section

variable (dev : Device σ) (protocolVersion : Nat) (raw : Bytes) (env : σ)

structure Initialised where
  req : SignPsbtRequest
  g : GlobalState
  initialised : World σ
  request_ok : readSignPsbtRequest raw = .ok req
  init_ok : initGlobalState dev protocolVersion req (World.initial env) = .ok g initialised

def Initialised.start {dev : Device σ} {protocolVersion : Nat} {raw : Bytes} {env : σ}
    (i : Initialised dev protocolVersion raw env) : World σ :=
  { i.initialised with session := { i.initialised.session with cache := .empty } }

structure Preparation extends Initialised dev protocolVersion raw env where
  inputs : World σ
  internalOutputs : List Bool
  outputs : World σ
  parts : TxParts
  hashed : World σ
  inputs_ok : preprocessInputs dev g toInitialised.start = .ok () inputs
  outputs_ok : preprocessOutputs dev g inputs = .ok internalOutputs outputs
  hashes_ok : fetch dev (computeTxHashes dev g) outputs = .ok parts hashed

end

variable {protocolVersion : Nat} {raw : Bytes} {env : σ}

def Preparation.prepared (p : Preparation dev protocolVersion raw env) : World σ :=
  p.hashed.append [.outputsHashed p.parts.outputs]

abbrev Preparation.txHashes (p : Preparation dev protocolVersion raw env) : TxHashes :=
  p.parts.hashes dev.crypto.sha256

structure Agreed (dev : Device σ) (protocolVersion : Nat) (raw : Bytes) (env : σ) extends
    Preparation dev protocolVersion raw env where
  accepted : World σ
  display_ok : displayTransaction dev g internalOutputs toPreparation.prepared = .ok () accepted

abbrev prepareKinds : List Kind :=
  [.session, .status, .policy, .markers, .keys, .nonces, .inputAmount, .input, .outputAmount, .output,
    .reset, .hashed]

theorem keysOk_initial : KeysOk dev g (World.initial env) := ⟨forall_mem_nil _, Device.cacheCoherent_empty⟩

theorem Initialised.run (i : Initialised dev protocolVersion raw env) (hashes : TxHashes) :
    Run dev i.g hashes [.session, .status, .policy] (World.initial env) i.start ∧ KeysOk dev i.g i.start := by
  have hinit : Does dev i.g hashes [.session, .status, .policy] (fun _ => True)
      (initGlobalState dev protocolVersion i.req) := does_initGlobalState protocolVersion i.req
  obtain ⟨hrun, hkeys, -⟩ := hinit.ok keysOk_initial i.init_ok
  refine ⟨Evolution.trans hrun ?_, hkeys.1, Device.cacheCoherent_empty⟩
  exact (Step.session (s := { i.initialised.session with cache := .empty })
    ⟨.of_eq rfl, Evolution.refl _⟩).run (by simp)

theorem Preparation.run_inputs (p : Preparation dev protocolVersion raw env) (hashes : TxHashes) :
    Run dev p.g hashes inputsKinds p.start p.inputs ∧ KeysOk dev p.g p.inputs := by
  obtain ⟨hrun, hkeys, -⟩ := does_preprocessInputs.ok (p.toInitialised.run hashes).2 p.inputs_ok
  exact ⟨hrun, hkeys⟩

theorem Preparation.run_outputs (p : Preparation dev protocolVersion raw env) (hashes : TxHashes) :
    Run dev p.g hashes (.reset :: outputsKinds) p.inputs p.outputs ∧ KeysOk dev p.g p.outputs := by
  obtain ⟨hrun, hkeys, -⟩ := does_preprocessOutputs.ok (p.run_inputs hashes).2 p.outputs_ok
  exact ⟨hrun, hkeys⟩

theorem Preparation.run_hashed (p : Preparation dev protocolVersion raw env) (hashes : TxHashes) :
    Run dev p.g hashes [.session, .status, .hashed] p.outputs p.prepared ∧ KeysOk dev p.g p.prepared := by
  have hfetch : Does dev p.g hashes [.session, .status, .hashed] (fun _ => True)
      (fetch dev (computeTxHashes dev p.g)) := does_fetch reads_computeTxHashes
  obtain ⟨hrun, hkeys, -⟩ := hfetch.ok (p.run_outputs hashes).2 p.hashes_ok
  exact ⟨Evolution.trans hrun (Step.outputsHashed.run (by simp)), hkeys⟩

theorem Preparation.run (p : Preparation dev protocolVersion raw env) (hashes : TxHashes) :
    Run dev p.g hashes prepareKinds (World.initial env) p.prepared := by
  have hstart := (p.toInitialised.run hashes).1.mono dev p.g prepareKinds (by simp)
  have hinputs := (p.run_inputs hashes).1.mono dev p.g prepareKinds (by simp)
  have houtputs := (p.run_outputs hashes).1.mono dev p.g prepareKinds (by simp)
  have hhashed := (p.run_hashed hashes).1.mono dev p.g prepareKinds (by simp)
  exact Evolution.trans hstart (Evolution.trans hinputs (Evolution.trans houtputs hhashed))

theorem Agreed.run (a : Agreed dev protocolVersion raw env) (hashes : TxHashes) :
    Run dev a.g hashes (.fee :: displayKinds) a.prepared a.accepted ∧ KeysOk dev a.g a.accepted := by
  obtain ⟨hrun, hkeys, -⟩ := (does_displayTransaction _).ok (a.toPreparation.run_hashed hashes).2 a.display_ok
  exact ⟨hrun, hkeys⟩

inductive Ends (dev : Device σ) (protocolVersion : Nat) (raw : Bytes) (env : σ) (w : World σ) : Prop
  | unread (huses : w.session.uses = [])
      (hrun : ∀ g hashes, Run dev g hashes [.session, .status, .policy] (World.initial env) w)
  | preparing (i : Initialised dev protocolVersion raw env)
      (hrun : ∀ hashes, Run dev i.g hashes prepareKinds i.start w)
  | showing (p : Preparation dev protocolVersion raw env)
      (hrun : Run dev p.g p.txHashes (.fee :: displayKinds) p.prepared w)
  | signing (a : Agreed dev protocolVersion raw env) (hrun : Run dev a.g a.txHashes signKinds a.accepted w)

theorem ends_of_fetch (h : Asks dev x) :
    Ends dev protocolVersion raw env (finalState (fetch dev x) (World.initial env)) := by
  refine .unread ?_ fun g hashes => ?_
  · exact ((usesNothing_fetch h).finalState trivial).1
  · exact ((does_fetch h.reads).finalState keysOk_initial).1

theorem Initialised.nInputs_le (i : Initialised dev protocolVersion raw env) :
    i.g.nInputs ≤ maxNInputsCanSign := by
  have hreq := i.request_ok
  obtain ⟨fields, wallet, fingerprint, -, -, -, -, -, -, hg, -⟩ := initGlobalState_ok i.init_ok
  rw [hg]
  unfold readSignPsbtRequest at hreq
  grind

theorem Agreed.ends (a : Agreed dev protocolVersion raw env) :
    Ends dev protocolVersion raw env (finalState (do
      signTransaction dev a.g a.txHashes
      sendStatus dev SW_OK none) a.accepted) := by
  refine .signing a (Within.finalState (P := fun _ => True) ?_ (a.run a.txHashes).2).1
  exact (does_signTransaction a.nInputs_le).bind fun _ _ => does_sendStatus _ _

theorem Preparation.ends (p : Preparation dev protocolVersion raw env) :
    Ends dev protocolVersion raw env (finalState (do
      displayTransaction dev p.g p.internalOutputs
      signTransaction dev p.g p.txHashes
      sendStatus dev SW_OK none) p.prepared) := by
  have hkeys := (p.run_hashed p.txHashes).2
  rcases finalState_bind_cases (displayTransaction dev p.g p.internalOutputs) _ p.prepared with
    ⟨_, w, hok, heq⟩ | ⟨e, w, herror, heq⟩
  · rw [heq]
    exact Agreed.ends { p with accepted := w, display_ok := hok }
  · rw [heq]
    exact .showing p ((does_displayTransaction _).error hkeys herror).1

def Initialised.Reached (i : Initialised dev protocolVersion raw env) (w : World σ) : Prop :=
  ∀ hashes, Run dev i.g hashes prepareKinds i.start w ∧ KeysOk dev i.g w

theorem Initialised.ends_bind (i : Initialised dev protocolVersion raw env)
    {x : Sign σ α} {f : α → Sign σ Unit} {v : World σ} (hv : i.Reached v)
    (hx : ∀ hashes, Does dev i.g hashes prepareKinds (fun _ => True) x)
    (hf : ∀ a w, x v = .ok a w → i.Reached w → Ends dev protocolVersion raw env (finalState (f a) w)) :
    Ends dev protocolVersion raw env (finalState (x >>= f) v) := by
  rcases finalState_bind_cases x f v with ⟨a, w, hok, heq⟩ | ⟨e, w, herror, heq⟩
  · rw [heq]
    refine hf a w hok fun hashes => ?_
    obtain ⟨hrun, hkeys, -⟩ := (hx hashes).ok (hv hashes).2 hok
    exact ⟨Evolution.trans (hv hashes).1 hrun, hkeys⟩
  · rw [heq]
    exact .preparing i fun hashes =>
      Evolution.trans (hv hashes).1 ((hx hashes).error (hv hashes).2 herror).1

theorem Initialised.ends (i : Initialised dev protocolVersion raw env) :
    Ends dev protocolVersion raw env (finalState (do
      initSignPsbtCache
      preprocessInputs dev i.g
      let internalOutputs ← preprocessOutputs dev i.g
      let parts ← fetch dev (computeTxHashes dev i.g)
      record (.outputsHashed parts.outputs)
      displayTransaction dev i.g internalOutputs
      signTransaction dev i.g (parts.hashes dev.crypto.sha256)
      sendStatus dev SW_OK none) i.initialised) := by
  have hstart : i.Reached i.start := fun hashes => ⟨Evolution.refl _, (i.run hashes).2⟩
  change Ends dev protocolVersion raw env (finalState (preprocessInputs dev i.g >>= _) i.start)
  refine i.ends_bind hstart (fun _ => does_preprocessInputs.mono (by simp)) fun _ w1 hinputs hw1 => ?_
  refine i.ends_bind hw1 (fun _ => does_preprocessOutputs.mono (by simp))
    fun internalOutputs w2 houtputs hw2 => ?_
  refine i.ends_bind hw2 (fun _ => does_fetch reads_computeTxHashes) fun parts w3 hhashes _ => ?_
  exact Preparation.ends { i with
    inputs := w1, internalOutputs, outputs := w2, parts, hashed := w3
    inputs_ok := hinputs, outputs_ok := houtputs, hashes_ok := hhashes }

theorem handlerSignPsbt_ends (dev : Device σ) (protocolVersion : Nat) (raw : Bytes) (env : σ) :
    Ends dev protocolVersion raw env
      (finalState (handlerSignPsbt dev protocolVersion raw) (World.initial env)) := by
  unfold handlerSignPsbt
  cases hreq : readSignPsbtRequest raw with
  | error sw => exact ends_of_fetch (asks_fail sw)
  | ok req =>
    rcases finalState_bind_cases (initGlobalState dev protocolVersion req) _ (World.initial env) with
      ⟨g, w, hok, heq⟩ | ⟨e, w, herror, heq⟩
    · dsimp only
      rw [heq]
      exact Initialised.ends ⟨req, g, w, hreq, hok⟩
    · dsimp only
      rw [heq]
      refine .unread ((usesNothing_initGlobalState _ _).error trivial herror).1 fun g hashes => ?_
      exact ((does_initGlobalState _ _).error keysOk_initial herror).1

instance : Inhabited Digest := ⟨⟨replicate 32 0, length_replicate⟩⟩

instance : Inhabited TxHashes := ⟨⟨default, default, default, default, default⟩⟩

instance : Inhabited GlobalState :=
  ⟨⟨0, 0, 0, 0, 0, default, 0, default, ⟨0, [], 0, .inl [], 0, default⟩, .constant none .zero⟩⟩

theorem Run.mem_trace
    (h : Run dev g hashes kinds w w') (he : e ∈ w'.trace) : e ∈ w.trace ∨ e.kind ∈ kinds := by
  obtain ⟨events, htrace, hevents⟩ := h.events
  rw [htrace] at he
  exact (mem_append.mp he).imp id (hevents e)

/-- A run with an event of a later kind has read and hashed everything. -/
theorem Ends.late (h : Ends dev protocolVersion raw env w)
    (he : e ∈ w.trace) (hkind : e.kind ∉ prepareKinds) :
    (∃ p : Preparation dev protocolVersion raw env,
      Run dev p.g p.txHashes (.fee :: displayKinds) p.prepared w) ∨
    ∃ a : Agreed dev protocolVersion raw env, Run dev a.g a.txHashes signKinds a.accepted w := by
  have hnone {g : GlobalState} {hashes : TxHashes}
      (hrun : Run dev g hashes prepareKinds (World.initial env) w) : False :=
    (hrun.mem_trace he).elim (by simp [World.initial]) hkind
  cases h with
  | unread _ hrun => exact (hnone ((hrun default default).mono dev _ prepareKinds (by simp))).elim
  | preparing i hrun =>
    have hstart := (i.run default).1.mono dev i.g prepareKinds (by simp)
    exact (hnone (Evolution.trans hstart (hrun default))).elim
  | showing p hrun => exact .inl ⟨p, hrun⟩
  | signing a hrun => exact .inr ⟨a, hrun⟩

theorem Preparation.unsigned (p : Preparation dev protocolVersion raw env) {hashes : TxHashes}
    (hrun : Run dev p.g hashes (.fee :: displayKinds) p.prepared w) (sig : Signature) :
    .signed sig ∉ w.trace := by
  intro hmem
  rcases hrun.mem_trace hmem with hmem | hkind
  · rcases (p.run hashes).mem_trace hmem with hmem | hkind
    · simp [World.initial] at hmem
    · simp [Event.kind] at hkind
  · simp [Event.kind] at hkind

theorem Ends.signed (h : Ends dev protocolVersion raw env w) (hsig : .signed sig ∈ w.trace) :
    ∃ a : Agreed dev protocolVersion raw env, Run dev a.g a.txHashes signKinds a.accepted w := by
  obtain ⟨p, hrun⟩ | hagreed := h.late hsig (by simp [Event.kind])
  · exact absurd hsig (p.unsigned hrun sig)
  · exact hagreed

theorem split_of_append {events : List Event} (h : trace ++ events = before ++ e :: after)
    (he : e ∉ events) : ∃ after', trace = before ++ e :: after' := by
  rcases append_eq_append_iff.mp h with ⟨l, rfl, hevents⟩ | ⟨l, htrace, hafter⟩
  · exact absurd (hevents ▸ mem_append_right l mem_cons_self) he
  · cases l with
    | nil => exact absurd ((nil_append events ▸ hafter) ▸ mem_cons_self) he
    | cons e' l =>
      obtain ⟨rfl, -⟩ := cons.inj hafter
      exact ⟨l, htrace⟩

theorem split_of_append_singleton {e' : Event} (h : trace ++ [e'] = before ++ e :: after) :
    trace = before ∧ e' = e ∨ ∃ after', trace = before ++ e :: after' := by
  rcases eq_nil_or_concat after with rfl | ⟨after', last, rfl⟩
  · obtain ⟨htrace, hlast⟩ := append_inj' h rfl
    exact .inl ⟨htrace, singleton_inj.mp hlast⟩
  · rw [concat_eq_append, ← cons_append, ← append_assoc] at h
    exact .inr ⟨after', (append_inj' h rfl).1⟩

theorem Step.signed_at {kind : Kind} (h : Step dev g hashes kind w w') (hsplit : w'.trace = before ++ .signed sig :: after) :
    w.trace = before ∧ Signable dev g hashes w sig ∨ ∃ after', w.trace = before ++ .signed sig :: after' := by
  by_cases hkind : kind = .signed
  · subst hkind
    cases h with
    | signed hsig =>
      rcases split_of_append_singleton hsplit with ⟨htrace, heq⟩ | hearlier
      · cases heq
        exact .inl ⟨htrace, hsig⟩
      · exact .inr hearlier
  · obtain ⟨events, hevents, hkinds⟩ := h.events
    rw [hevents] at hsplit
    exact .inr (split_of_append hsplit fun hmem => hkind (hkinds _ hmem).symm)

theorem Run.signed_at (h : Run dev g hashes kinds w w') (hw : ∀ sig, .signed sig ∉ w.trace)
    (hsplit : w'.trace = before ++ .signed sig :: after) :
    ∃ v, Run dev g hashes kinds w v ∧ v.trace = before ∧ Signable dev g hashes v sig := by
  induction h generalizing after with
  | refl => exact absurd (hsplit ▸ by simp) (hw sig)
  | @tail v v' hrun hstep ih =>
    obtain ⟨kind, -, hstep⟩ := hstep
    rcases hstep.signed_at hsplit with ⟨htrace, hsig⟩ | ⟨after', hearlier⟩
    · exact ⟨v, hrun, htrace, hsig⟩
    · exact ih hearlier

abbrev allKinds : List Kind := prepareKinds ++ [.fee, .screen, .signed]

theorem Agreed.run_all (a : Agreed dev protocolVersion raw env) (hashes : TxHashes) :
    Run dev a.g hashes allKinds (World.initial env) a.accepted :=
  Evolution.trans ((a.toPreparation.run hashes).mono dev a.g allKinds (by simp))
    ((a.run hashes).1.mono dev a.g allKinds (by simp))

theorem Ends.signed_at (h : Ends dev protocolVersion raw env w) (hsplit : w.trace = before ++ .signed sig :: after) :
    ∃ (a : Agreed dev protocolVersion raw env) (v : World σ),
      Run dev a.g a.txHashes signKinds a.accepted v ∧ v.trace = before ∧
      Signable dev a.g a.txHashes v sig := by
  have hsig : .signed sig ∈ w.trace := by simp [hsplit]
  obtain ⟨a, hrun⟩ := h.signed hsig
  exact ⟨a, hrun.signed_at (a.unsigned (a.run a.txHashes).1) hsplit⟩

theorem Ends.run (h : Ends dev protocolVersion raw env w) :
    ∃ g hashes, Run dev g hashes allKinds (World.initial env) w := by
  cases h with
  | unread _ hrun => exact ⟨default, default, (hrun _ _).mono dev _ allKinds (by simp)⟩
  | preparing i hrun =>
    have hstart := (i.run default).1.mono dev i.g allKinds (by simp)
    exact ⟨i.g, default, Evolution.trans hstart ((hrun default).mono dev i.g allKinds (by simp))⟩
  | showing p hrun =>
    have hprepared := (p.run p.txHashes).mono dev p.g allKinds (by simp)
    exact ⟨p.g, p.txHashes, Evolution.trans hprepared (hrun.mono dev p.g allKinds (by simp))⟩
  | signing a hrun =>
    exact ⟨a.g, a.txHashes, Evolution.trans (a.run_all _) (hrun.mono dev a.g allKinds (by simp))⟩

end LedgerBabylon
