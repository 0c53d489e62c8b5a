import LedgerBabylon.Handler.SignPsbt.Reading

/-!
# The parts of a signing run

Which kinds of steps each part of the signing flow takes, and what is known of the values it returns.
-/

namespace LedgerBabylon

open Exec

variable {sw : Nat} {screen : Screen} {info info' : KeyexprInfo}

variable {σ τ α : Type} {dev : Device σ} {g : GlobalState} {hashes : TxHashes} {kinds : List Kind}

variable {P : α → Prop} {x : Fetch σ α} {w w' : World σ} {a : α} {curIndex index : Nat}
  {map : MerkleizedMapCommitment}

theorem Does.mono {x : Sign σ α} {kinds' : List Kind} (h : Does dev g hashes kinds P x)
    (hkinds : kinds ⊆ kinds') : Does dev g hashes kinds' P x :=
  h.imp fun _ _ hrun => hrun.mono dev g kinds' hkinds

theorem Step.run {kind : Kind} (h : Step dev g hashes kind w w')
    (hkind : kind ∈ kinds) : Run dev g hashes kinds w w' := .single ⟨kind, hkind, h⟩

theorem Run.induction {J : World σ → Prop} (h : Run dev g hashes kinds w w')
    (hstep : ∀ kind ∈ kinds, ∀ w w', Step dev g hashes kind w w' → J w → J w') (hw : J w) : J w' := by
  induction h with
  | refl => exact hw
  | tail _ hlast ih =>
    obtain ⟨kind, hkind, hlast⟩ := hlast
    exact hstep kind hkind _ _ hlast ih

def Kind.quiet : Kind → Bool
  | .session | .status | .policy | .hashed | .screen | .signed => true
  | _ => false

theorem Run.st_eq (h : Run dev g hashes kinds w w') (hkinds : ∀ kind ∈ kinds, kind.quiet) : w'.st = w.st := by
  refine h.induction (J := fun v => v.st = w.st) (fun kind hkind v v' hstep hv => ?_) rfl
  have hquiet := hkinds kind hkind
  cases hstep <;> first | exact hv | simp [Kind.quiet] at hquiet

theorem does_modifySt (kind : Kind) {f : SignPsbtState → SignPsbtState} (hkind : kind ∈ kinds)
    (hstep : ∀ w : World σ, Step dev g hashes kind w { w with st := f w.st })
    (hkeys : ∀ st, (f st).internalKeyExpressions = st.internalKeyExpressions) :
    Does dev g hashes kinds (fun _ => True) (modifySt f : Sign σ Unit) :=
  Within.modify fun w hw => ⟨(hstep w).run hkind, by simpa only [hkeys] using hw.1, hw.2⟩

theorem does_record (kind : Kind) {e : Event} (hkind : kind ∈ kinds)
    (hstep : ∀ w : World σ, Step dev g hashes kind w (w.append [e])) :
    Does dev g hashes kinds (fun _ => True) (record e : Sign σ Unit) :=
  Within.modify fun w hw => ⟨(hstep w).run hkind, hw⟩

theorem does_getSt : Does dev g hashes kinds
    (fun st : SignPsbtState => ∀ key ∈ st.internalKeyExpressions, KeyOk dev g key)
    (getSt : Sign σ SignPsbtState) :=
  Within.bind (Within.get fun _ hw => hw.1) fun _ h => .pure h

theorem does_callIgnored (hsession : .session ∈ kinds) {x : Ask σ α}
    (hkeeps : ∀ J, dev.env.Keeps J → Keeps J x) :
    Does dev g hashes kinds (fun _ => True) (callIgnored x) := by
  intro w hw
  unfold callIgnored
  have hstep {e : σ} (he : finalState x w.session.env = e) :
      Run dev g hashes kinds w { w with session := { w.session with env := e } } :=
    (Step.session (.of_ask (fun J hJ _ => hkeeps J hJ) he)).run hsession
  cases hx : x w.session.env with
  | ok a e => exact ⟨hstep (by rw [finalState, hx]), hw, trivial⟩
  | error fault e =>
    cases fault with
    | ret code => exact ⟨hstep (by rw [finalState, hx]), hw, trivial⟩
    | _ => exact ⟨hstep (by rw [finalState, hx]), hw⟩

/-- Kinds of steps that include those of a fetch, which may end with a status word. -/
class Fetching (kinds : List Kind) : Prop where
  session : .session ∈ kinds
  status : .status ∈ kinds

instance : Fetching (.session :: .status :: kinds) := ⟨by simp, by simp⟩

instance {kind : Kind} [h : Fetching kinds] : Fetching (kind :: kinds) :=
  ⟨List.mem_cons_of_mem _ h.session, List.mem_cons_of_mem _ h.status⟩

theorem does_sendStatus [hkinds : Fetching kinds] (sw : Nat) (ec : Option Nat) :
    Does dev g hashes kinds (fun _ => True) (sendStatus dev sw ec) :=
  (does_callIgnored hkinds.session fun _ h => h.sendSw _ _).bind fun _ _ =>
    does_record .status hkinds.status fun _ => .status

theorem does_abort [Fetching kinds] (failure : Failure) :
    Does dev g hashes kinds P (abort dev failure : Sign σ α) := by
  cases failure with
  | status sw ec => exact (does_sendStatus sw ec).bind fun _ _ => .throw
  | silent => exact .throw
  | fault f => exact .throw

theorem fetch_ok_iff :
    fetch dev x w = .ok a w' ↔ ∃ s, x w.session = .ok a s ∧ w' = { w with session := s } := by
  unfold fetch
  cases hx : x w.session with
  | ok b s =>
    constructor
    · rintro ⟨⟩
      exact ⟨s, rfl, rfl⟩
    · rintro ⟨s', h, rfl⟩
      cases h
      rfl
  | error failure s =>
    constructor
    · intro h
      cases failure with
      | status sw ec =>
        obtain ⟨_, _, _, h⟩ := bind_ok h
        simp at h
      | silent => simp [abort] at h
      | fault f => simp [abort] at h
    · rintro ⟨s', h, -⟩
      cases h

theorem fetch_ok_iff_of_check {p : Prop}
    (h : ∀ s s', x s = .ok a s' ↔ p ∧ s = s') : fetch dev x w = .ok a w' ↔ p ∧ w = w' := by
  rw [fetch_ok_iff]
  constructor
  · rintro ⟨s, hx, rfl⟩
    obtain ⟨hp, rfl⟩ := (h _ _).mp hx
    exact ⟨hp, rfl⟩
  · rintro ⟨hp, rfl⟩
    exact ⟨w.session, (h _ _).mpr ⟨hp, rfl⟩, rfl⟩

@[simp] theorem fetch_okOr_ok_iff {r : Except Int α} :
    fetch dev (okOr sw r) w = .ok a w' ↔ r = .ok a ∧ w = w' :=
  fetch_ok_iff_of_check fun _ _ => okOr_ok_iff

@[simp] theorem fetch_someOr_ok_iff {o : Option α} :
    fetch dev (someOr sw o) w = .ok a w' ↔ o = some a ∧ w = w' :=
  fetch_ok_iff_of_check fun _ _ => someOr_ok_iff

@[simp] theorem fetch_checkOr_ok_iff {cond : Bool} {u : Unit} :
    fetch dev (checkOr sw cond) w = .ok u w' ↔ cond = true ∧ w = w' :=
  fetch_ok_iff_of_check fun _ _ => checkOr_ok_iff

theorem does_fetch [hkinds : Fetching kinds] (h : SignReads dev g P x) :
    Does dev g hashes kinds P (fetch dev x) := by
  intro w hw
  unfold fetch
  cases hx : x w.session with
  | ok a s =>
    obtain ⟨hfetched, hcache, ha⟩ := h.ok hw.2 hx
    exact ⟨(Step.session hfetched).run hkinds.session, ⟨hw.1, hcache⟩, ha⟩
  | error failure s =>
    obtain ⟨hfetched, hcache⟩ := h.error hw.2 hx
    have habort : Does dev g hashes kinds P (abort dev failure) := does_abort failure
    have hfirst : Run dev g hashes kinds w { w with session := s } :=
      (Step.session hfetched).run hkinds.session
    exact (habort { w with session := s } ⟨hw.1, hcache⟩).after hfirst

theorem does_confirm (hscreen : screen.fee? = none) :
    Does dev g hashes [.session, .screen] (fun _ => True) (confirm dev screen) := by
  refine .bind (does_callIgnored (by simp) fun _ h => h.confirm _) fun answer _ => ?_
  intro w hw
  have hstep : Run dev g hashes [.session, .screen] w
      (w.append [.shown screen w.st.warnings (answer.getD false)]) :=
    (Step.shown fun fee hfee => by simp [hscreen] at hfee).run (by simp)
  exact ⟨hstep, hw, trivial⟩

theorem does_confirmOrDeny (hscreen : screen.fee? = none) :
    Does dev g hashes [.session, .status, .screen] (fun _ => True) (confirmOrDeny dev screen) := by
  refine .bind ((does_confirm hscreen).mono (by simp)) fun accepted _ => ?_
  exact does_fetch (reads_checkOr _ _).steps

theorem does_callGetMerkleizedMapWithCallback [Fetching kinds] (root : Digest) (size index : Nat)
    {callback : MerkleizedMapCommitment → Nat → Bytes → τ → Sign σ τ}
    (hcallback : ∀ map i key t, Does dev g hashes kinds (fun _ => True) (callback map i key t)) (t : τ) :
    Does dev g hashes kinds (fun _ => True)
      (callGetMerkleizedMapWithCallback dev root size index callback t) := by
  refine .bind (does_fetch (asks_fetchMapCommitment _ _ _).reads) fun map _ => ?_
  cases map with
  | none => exact .pure trivial
  | some map =>
    refine .bind (steps_checkSortedLoop (fun i => ?_) (hcallback map) _ _ _ _) fun _ _ => ?_
    · exact does_fetch (asks_sortedElement _ _ _).reads
    · exact .pure trivial

abbrev keyInfoKinds : List Kind := [.session, .status, .markers]

theorem does_noteLeafhash (kind : LeafhashKind) (leafhash : Bytes) :
    Does dev g hashes keyInfoKinds (fun _ => True) (noteLeafhash kind leafhash : Sign σ Unit) := by
  intro w hw
  have hrun : noteLeafhash kind leafhash w = (if w.st.psbtLeafhash.isNone then do
        modifySt fun st => { st with psbtLeafhash := some (kind, leafhash) }
        record (.leafhashRead kind leafhash)
      else pure () : Sign σ Unit) w := rfl
  rw [hrun]
  by_cases hnone : w.st.psbtLeafhash.isNone
  · rw [if_pos hnone]
    exact ⟨(Step.leafhash (Option.isNone_iff_eq_none.mp hnone)).run (by simp), hw, trivial⟩
  · rw [if_neg hnone]
    exact ⟨Evolution.refl w, hw, trivial⟩

theorem does_noteMarkers (keyInfo : PolicyMapKeyInfo) :
    Does dev g hashes keyInfoKinds (fun _ => True) (noteMarkers keyInfo : Sign σ Unit) := by
  unfold noteMarkers
  split
  · intro w hw
    exact ⟨Step.finality.run (by simp), hw, trivial⟩
  · exact does_noteLeafhash _ _
  · exact does_noteLeafhash _ _
  · exact .pure trivial
  · exact .pure trivial

structure Refilled (dev : Device σ) (g : GlobalState) (info info' : KeyexprInfo) : Prop where
  index : info'.index = info.index
  keyExpr : info'.keyExpr = info.keyExpr
  tapleaf : info'.tapleaf = info.tapleaf
  isTapscript : info'.isTapscript = info.isTapscript
  origin : KeyOrigin dev g info.keyDerivation → KeyOrigin dev g info'.keyDerivation

theorem Refilled.refl (info : KeyexprInfo) : Refilled dev g info info := ⟨rfl, rfl, rfl, rfl, id⟩

theorem Refilled.trans {info'' : KeyexprInfo} (h : Refilled dev g info info')
    (h' : Refilled dev g info' info'') : Refilled dev g info info'' where
  index := h'.index.trans h.index
  keyExpr := h'.keyExpr.trans h.keyExpr
  tapleaf := h'.tapleaf.trans h.tapleaf
  isTapscript := h'.isTapscript.trans h.isTapscript
  origin := h'.origin ∘ h.origin

theorem Refilled.keyOk (h : Refilled dev g info info') (hinfo : KeyOk dev g info) : KeyOk dev g info' where
  origin := h.origin hinfo.origin
  leafKeys := by
    rw [h.tapleaf]
    exact hinfo.leafKeys
  leaf internalKey tree hpolicy := by
    rw [h.index, h.keyExpr, h.tapleaf, h.isTapscript]
    exact hinfo.leaf internalKey tree hpolicy

theorem does_getAndVerifyKeyInfo (keyIndex : Nat) (info : KeyexprInfo) :
    Does dev g hashes keyInfoKinds (fun result => Refilled dev g info result.2)
      (getAndVerifyKeyInfo dev g keyIndex info) := by
  refine .bind (does_fetch (reads_call fun _ h _ => h.leafElement _ _ _ _)) fun answer hanswer => ?_
  cases answer with
  | error code => exact .pure (.refl info)
  | ok str =>
    have hstr : PolicyKeyInfo dev g str := ⟨_, hanswer⟩
    refine .bind (does_fetch (reads_parseKeyInfoAnyway hstr)) fun keyInfo hkeyInfo => ?_
    refine .bind (does_noteMarkers keyInfo) fun _ _ => ?_
    refine .bind (does_fetch (reads_isOwnKey _ _)) fun own _ => ?_
    obtain ⟨ok, hparse⟩ := hkeyInfo
    exact .pure ⟨rfl, rfl, rfl, rfl, fun _ => .inr ⟨str, ok, keyInfo, hstr, hparse, rfl⟩⟩

theorem does_fillMusigKeys (keyIndexes : List Nat) (found : MusigKeys) : Does dev g hashes keyInfoKinds
      (fun found' => KeyOrigin dev g found.tmp.keyDerivation → Refilled dev g found.info found'.info)
      (fillMusigKeys dev g keyIndexes found) := by
  induction keyIndexes generalizing found with
  | nil => exact .pure fun _ => .refl found.info
  | cons keyIndex keyIndexes ih =>
    refine .bind (does_getAndVerifyKeyInfo keyIndex found.tmp) fun result hresult => ?_
    refine .mono (ih _) fun found' hfound' horigin => ?_
    refine Refilled.trans ?_ (hfound' (hresult.origin horigin))
    split
    · exact ⟨rfl, rfl, rfl, rfl, fun _ => hresult.origin horigin⟩
    · exact .refl _

theorem does_fillKeyexprInfoIfInternal (info : KeyexprInfo) (hinfo : KeyOrigin dev g info.keyDerivation) :
    Does dev g hashes keyInfoKinds (fun result => Refilled dev g info result.2)
      (fillKeyexprInfoIfInternal dev g info) := by
  unfold fillKeyexprInfoIfInternal
  split
  · refine .bind (does_getAndVerifyKeyInfo _ info) fun result hresult => ?_
    refine .pure ?_
    dsimp only
    split
    · exact ⟨hresult.index, hresult.keyExpr, hresult.tapleaf, hresult.isTapscript, hresult.origin⟩
    · exact .refl info
  · refine .bind (does_fillMusigKeys _ _) fun found hfound => ?_
    have hinfo' := hfound hinfo
    refine .ite (fun _ => .pure ?_) fun _ => .pure hinfo'
    exact ⟨hinfo'.index, hinfo'.keyExpr, hinfo'.tapleaf, hinfo'.isTapscript, hinfo'.origin⟩
  · exact does_fetch reads_undefinedBehaviour

theorem does_setKeys {f : World σ → List KeyexprInfo} (hkeys : .keys ∈ kinds)
    (hf : ∀ w, KeysOk dev g w → ∀ key ∈ f w, KeyOk dev g key) :
    Does dev g hashes kinds (fun _ => True) (modify fun w =>
      { w with st := { w.st with internalKeyExpressions := f w } } : Sign σ PUnit) :=
  Within.modify fun w hw => ⟨Step.keys.run hkeys, hf w hw, hw.2⟩

abbrev fillKinds : List Kind := [.session, .status, .markers, .keys]

theorem does_addInternalKeyExpression (hinfo : KeyOk dev g info) :
    Does dev g hashes fillKinds (fun _ => True) (addInternalKeyExpression dev info) := by
  refine .bind does_getSt fun st hst => ?_
  refine .ite (fun _ => ?_) fun _ => ?_
  · exact does_fetch (reads_failEc _ _)
  · refine does_setKeys (by simp) fun w hw key hkey => ?_
    rcases List.mem_append.mp hkey with hkey | hkey
    · exact hw.1 key hkey
    · rwa [List.mem_singleton.mp hkey]

structure LoopInfo (dev : Device σ) (g : GlobalState) (curIndex : Nat) (info : KeyexprInfo) : Prop where
  origin : KeyOrigin dev g info.keyDerivation
  leafKeys : ∀ leaf ∈ info.tapleaf, ∀ keyExpr ∈ leaf.keys, keyExpr ∈ g.policy.keys
  leaf : info.isTapscript = info.tapleaf.isSome
  first : curIndex = 0 → info.tapleaf = none

theorem tapleaf_of_mem_keyexprsTree {tree : PolicyTree PolicyNode} {found : KeyExpr × Option PolicyNode}
    (h : found ∈ keyexprsTree tree) : found.2 ≠ none := by
  induction tree with
  | leaf script =>
    obtain ⟨_, -, rfl⟩ := List.mem_map.mp h
    simp
  | branch l r ihl ihr => exact (List.mem_append.mp h).elim ihl ihr

theorem tapleaf_of_keyexprs_tr {key : KeyExpr} {tree : Option (PolicyTree PolicyNode)} {i : Nat}
    {keyExpr : KeyExpr} (h : (PolicyNode.tr key tree).keyexprs[i]? = some (keyExpr, none)) : i = 0 := by
  cases i with
  | zero => rfl
  | succ i =>
    rw [PolicyNode.keyexprs, List.getElem?_cons_succ] at h
    have hmem := List.mem_of_getElem? h
    cases tree with
    | none => simp [keyexprsTr] at hmem
    | some tree => exact absurd rfl (tapleaf_of_mem_keyexprsTree hmem)

theorem LoopInfo.atIndex (h : LoopInfo dev g curIndex info)
    (hcurIndex : curIndex < g.policy.keyexprs.length) :
    KeyOk dev g (info.atIndex g.policy curIndex) ∧
      LoopInfo dev g (curIndex + 1) (info.atIndex g.policy curIndex) := by
  have hfound : (getKeyexprByIndex g.policy curIndex).2 = g.policy.keyexprs[curIndex]? := by
    rw [getKeyexprByIndex_eq, foundIn]
  unfold KeyexprInfo.atIndex
  rw [hfound]
  obtain ⟨⟨keyExpr, tapleaf⟩, hsome⟩ : ∃ found, g.policy.keyexprs[curIndex]? = some found :=
    ⟨_, List.getElem?_eq_getElem hcurIndex⟩
  rw [hsome]
  cases tapleaf with
  | some leaf =>
    have hkeys : ∀ x ∈ some leaf, ∀ key ∈ x.keys, key ∈ g.policy.keys := by
      intro x hx key hkey
      obtain rfl : leaf = x := Option.some.inj hx
      exact PolicyNode.mem_keys_of_tapleaf (List.mem_of_getElem? hsome) hkey
    exact ⟨⟨h.origin, hkeys, fun _ _ _ => ⟨hsome, rfl⟩⟩, ⟨h.origin, hkeys, rfl, by simp⟩⟩
  | none =>
    refine ⟨⟨h.origin, h.leafKeys, fun internalKey tree hpolicy => ?_⟩,
      ⟨h.origin, h.leafKeys, h.leaf, by simp⟩⟩
    have hzero : curIndex = 0 := tapleaf_of_keyexprs_tr (hpolicy ▸ hsome)
    exact ⟨(h.first hzero).symm ▸ hsome, h.leaf⟩

theorem Refilled.loopInfo (h : Refilled dev g info info')
    (hinfo : LoopInfo dev g curIndex info) : LoopInfo dev g curIndex info' where
  origin := h.origin hinfo.origin
  leafKeys := by rw [h.tapleaf]; exact hinfo.leafKeys
  leaf := by rw [h.isTapscript, h.tapleaf, hinfo.leaf]
  first hzero := by rw [h.tapleaf, hinfo.first hzero]

theorem does_fillKeyExpressionsLoop (n curIndex : Nat) (info : KeyexprInfo)
    (hn : n + curIndex = g.policy.keyexprs.length) (hinfo : LoopInfo dev g curIndex info) :
    Does dev g hashes fillKinds (fun _ => True) (fillKeyExpressionsLoop dev g n curIndex info) := by
  induction n generalizing curIndex info with
  | zero => exact .pure trivial
  | succ n ih =>
    obtain ⟨hkey, hloop⟩ := hinfo.atIndex (by omega)
    refine .bind ((does_fillKeyexprInfoIfInternal _ hkey.origin).mono (by simp)) fun result hresult => ?_
    have hrest := ih (curIndex + 1) result.2 (by omega) (hresult.loopInfo hloop)
    refine .ite (fun _ => ?_) fun _ => hrest
    exact (does_addInternalKeyExpression (hresult.keyOk hkey)).bind fun _ _ => hrest

theorem does_fillInternalKeyExpressions :
    Does dev g hashes fillKinds (fun _ => True) (fillInternalKeyExpressions dev g) := by
  refine .bind (does_setKeys (by simp) (f := fun _ => []) (by simp)) fun _ _ => ?_
  refine .bind (does_fillKeyExpressionsLoop _ 0 .zero ?_ ?_) fun _ _ => ?_
  · rw [getKeyexprByIndex_eq, foundIn, Nat.add_zero]
  · exact ⟨.inl rfl, fun _ hleaf => absurd hleaf (Option.not_mem_none _), rfl, fun _ => rfl⟩
  · refine .bind does_getSt fun st _ => ?_
    exact .ite (fun _ => does_fetch (reads_failEc _ _)) fun _ => .pure trivial

abbrev readKinds : List Kind := [.session, .status, .keys, .nonces]

theorem does_noteInputDerivation (input : InputInfo) (info : DerivationInfo) :
    Does dev g hashes readKinds (fun _ => True) (noteInputDerivation input info : Sign σ InputInfo) := by
  refine .bind does_getSt fun st hst => ?_
  refine .bind (does_setKeys (by simp) (f := fun _ => st.internalKeyExpressions.map _) ?_)
    fun _ _ => .pure trivial
  intro w hw key hkey
  obtain ⟨key', hkey', rfl⟩ := List.mem_map.mp hkey
  have hok := hst key' hkey'
  split
  · exact ⟨hok.origin, hok.leafKeys, hok.leaf⟩
  · exact hok

theorem does_inputKeysCallback (map : MerkleizedMapCommitment) (index : Nat) (key : Bytes)
    (input : InputInfo) :
    Does dev g hashes readKinds (fun _ => True) (inputKeysCallback dev map index key input) := by
  cases key with
  | nil => exact .pure trivial
  | cons keyType data =>
    refine .ite (fun _ => ?_) fun _ => ?_
    · refine .bind (does_fetch (asks_readDerivation _ _ _ _).reads) fun answer _ => ?_
      match answer with
      | .error _ => exact .pure trivial
      | .ok none => exact .pure trivial
      | .ok (some info) => exact does_noteInputDerivation input info
    · refine .ite (fun _ => ?_) fun _ => .pure trivial
      refine .bind (does_modifySt .nonces (by simp) (fun _ => .nonces) fun _ => rfl) fun _ _ => ?_
      exact .pure trivial

theorem does_readInput (index : Nat) : Does dev g hashes readKinds (fun _ => True) (readInput dev g index) :=
  does_callGetMerkleizedMapWithCallback _ _ _ does_inputKeysCallback _

abbrev inputKinds : List Kind := .input :: readKinds

abbrev amountKinds : List Kind := .inputAmount :: inputKinds

theorem does_addInputAmount (amount : UInt64) :
    Does dev g hashes amountKinds (fun _ => True) (addInputAmount amount : Sign σ Unit) :=
  fun _ hw => ⟨Step.inputAmount.run (by simp), hw, trivial⟩

theorem does_checkNonWitnessUtxo (map : MerkleizedMapCommitment) (input : InputInfo) :
    Does dev g hashes amountKinds (fun _ => True) (checkNonWitnessUtxo dev map input) := by
  refine .ite (fun _ => ?_) fun _ => .pure trivial
  refine .bind (does_fetch (asks_readNonWitnessUtxo map).reads) fun utxo _ => ?_
  exact (does_addInputAmount _).bind fun _ _ => .pure trivial

theorem does_checkWitnessUtxo (map : MerkleizedMapCommitment) (input : InputInfo) :
    Does dev g hashes amountKinds (fun _ => True) (checkWitnessUtxo dev map input) := by
  refine .ite (fun _ => ?_) fun _ => .pure trivial
  refine .bind (does_fetch (asks_readWitnessUtxo map input).reads) fun utxo _ => ?_
  refine .ite (fun _ => .pure trivial) fun _ => ?_
  exact (does_addInputAmount _).bind fun _ _ => .pure trivial

theorem does_warnMissingNonwitnessutxo (segwitVersion : Int) (input : InputInfo) :
    Does dev g hashes inputKinds (fun _ => True)
      (warnMissingNonwitnessutxo segwitVersion input : Sign σ Unit) :=
  Within.ite (fun _ => does_modifySt .input (by simp) (fun _ => .warning id) fun _ => rfl)
    fun _ => .pure trivial

theorem not_needsWarning_of_isPlain {segwitVersion : Int} {type : UInt32}
    (h : isPlainSighashType segwitVersion type) : ¬needsWarning (some type) := by
  rintro ⟨t, ⟨⟩, hdefault, hall⟩
  simp [isPlainSighashType, hdefault, hall] at h

/-- The type of an internal input, once it is read: a type that needs a warning has set it when it is
accepted. -/
theorem does_acceptSighashType (segwitVersion : Int) (index : Nat) (type : UInt32) :
    Does dev g hashes inputKinds (fun _ => True) (do
      admitSighashType dev segwitVersion type
      fetch dev (checkSingle g type index)
      record (.sighashAccepted index (some type))) := by
  unfold admitSighashType
  split
  · next hplain =>
      refine .bind (Within.pure trivial) fun _ (_ : True) => ?_
      refine .bind (does_fetch (asks_checkSingle type index).reads) fun _ _ => ?_
      refine does_record .input (by simp) fun w => .sighashAccepted fun h => ?_
      exact absurd h (not_needsWarning_of_isPlain hplain)
  · split
    · unfold checkSingle
      split
      · refine .bind (does_modifySt .input (by simp) (fun _ => .warning fun _ => rfl)
          fun _ => rfl) fun _ _ => ?_
        exact .bind (does_fetch (P := fun _ => False) (reads_failEc _ _)) fun _ h => h.elim
      · intro w hw
        have hwarn : Run dev g hashes inputKinds w
            { w with st := { w.st with warnings := { w.st.warnings with nonDefaultSighash := true } } } :=
          (Step.warning fun _ => rfl).run (by simp)
        exact ⟨Evolution.trans hwarn ((Step.sighashAccepted fun _ => rfl).run (by simp)), hw, trivial⟩
    · exact .bind (does_fetch (P := fun _ => False) (reads_fail _)) fun _ h => h.elim

theorem does_checkSighashType (segwitVersion : Int) (map : MerkleizedMapCommitment) (index : Nat)
    (input : InputInfo) :
    Does dev g hashes inputKinds (fun _ => True) (checkSighashType dev g segwitVersion map index input) := by
  refine .ite (fun _ => ?_) fun _ => ?_
  · refine .bind (does_fetch (asks_call fun _ h => keeps_mapValueU32Le h _ _).reads) fun type _ => ?_
    refine .bind (does_fetch (reads_okOr _ _)) fun type _ => ?_
    exact does_acceptSighashType segwitVersion index type
  · refine does_record .input (by simp) fun w => .sighashAccepted ?_
    rintro ⟨t, ⟨⟩, -⟩

theorem does_finishInput (map : MerkleizedMapCommitment) (index : Nat) (input : InputInfo)
    (isInternal : Bool) :
    Does dev g hashes inputKinds (fun _ => True) (finishInput dev g map index input isInternal) := by
  refine .bind (does_record .input (by simp) fun _ => .classified) fun _ _ => ?_
  refine .ite (fun _ => ?_) fun _ => ?_
  · refine .bind (does_warnMissingNonwitnessutxo _ input) fun _ _ => ?_
    refine .bind (does_fetch (asks_checkUtxosForWallet _ input).reads) fun _ _ => ?_
    exact does_checkSighashType _ map index input
  · exact does_modifySt .input (by simp) (fun _ => .externalInput) fun _ => rfl

theorem does_preprocessInput (index : Nat) :
    Does dev g hashes amountKinds (fun _ => True) (preprocessInput dev g index) := by
  refine .bind ((does_readInput index).mono (by simp)) fun read _ => ?_
  refine .bind (does_fetch (reads_someOr _ read)) fun read _ => ?_
  refine .bind (does_fetch (asks_checkInput _).reads) fun _ _ => ?_
  refine .bind (does_checkNonWitnessUtxo _ _) fun input _ => ?_
  refine .bind (does_checkWitnessUtxo _ input) fun input _ => ?_
  refine .bind (does_fetch (reads_isInOutInternal _ _)) fun answer _ => ?_
  refine .bind (does_fetch (reads_okOr _ answer)) fun isInternal _ => ?_
  exact (does_finishInput _ index input isInternal).mono (by simp)

theorem does_forIndices {body : Nat → Sign σ Unit} (n index : Nat)
    (hbody : ∀ i, index ≤ i → i < index + n → Does dev g hashes kinds (fun _ => True) (body i)) :
    Does dev g hashes kinds (fun _ => True) (forIndices body n index) := by
  induction n generalizing index with
  | zero => exact .pure trivial
  | succ n ih =>
    refine .bind (hbody index (by omega) (by omega)) fun _ _ => ?_
    exact ih (index + 1) fun i hi hi' => hbody i (by omega) (by omega)

abbrev inputsKinds : List Kind := [.session, .status, .keys, .nonces, .inputAmount, .input, .markers]

theorem does_preprocessInputs : Does dev g hashes inputsKinds (fun _ => True) (preprocessInputs dev g) := by
  refine .bind (does_fillInternalKeyExpressions.mono (by simp)) fun _ _ => ?_
  exact does_forIndices _ _ fun i _ _ => (does_preprocessInput i).mono (by simp)

abbrev fetchKinds : List Kind := [.session, .status]

abbrev outputKinds : List Kind := [.session, .status, .output]

abbrev outputsKinds : List Kind := [.session, .status, .output, .outputAmount]

theorem does_outputKeysCallback (map : MerkleizedMapCommitment) (index : Nat) (key : Bytes)
    (inOut : InOutInfo) :
    Does dev g hashes fetchKinds (fun _ => True) (outputKeysCallback dev map index key inOut) := by
  cases key with
  | nil => exact .pure trivial
  | cons keyType data =>
    refine .ite (fun _ => ?_) fun _ => .pure trivial
    refine .bind (does_fetch (asks_readDerivation _ _ _ _).reads) fun answer _ => ?_
    match answer with
    | .error _ => exact .pure trivial
    | .ok none => exact .pure trivial
    | .ok (some info) =>
      refine .bind does_getSt fun st _ => ?_
      split <;> exact .pure trivial

theorem does_cacheOutput {script : Except Int Bytes}
    (hscript : ScriptFetched dev map script) (value : UInt64) :
    Does dev g hashes outputKinds (fun _ => True) (cacheOutput dev value script) := by
  refine .bind does_getSt fun st _ => ?_
  refine .ite (fun _ => ?_) fun _ => .pure trivial
  refine .bind (does_fetch (reads_copyScript hscript)) fun script _ => ?_
  exact does_modifySt .output (by simp) (fun _ => .output rfl) fun _ => rfl

theorem does_noteOutput {output : OutputRead} (hscript : ScriptFetched dev map output.script) :
    Does dev g hashes outputKinds (fun _ => True) (noteOutput dev output) := by
  refine .ite (fun _ => ?_) fun _ => ?_
  · exact does_modifySt .output (by simp) (fun _ => .output rfl) fun _ => rfl
  · refine .bind (does_cacheOutput hscript _) fun _ _ => ?_
    exact does_modifySt .output (by simp) (fun _ => .output rfl) fun _ => rfl

theorem does_addOutputAmount (amount : UInt64) :
    Does dev g hashes [.outputAmount] (fun _ => True) (addOutputAmount amount : Sign σ Unit) :=
  fun _ hw => ⟨Step.outputAmount.run (by simp), hw, trivial⟩

theorem does_recordOutput (output : OutputRead) :
    Does dev g hashes outputKinds (fun _ => True) (record (.outputRead output) : Sign σ Unit) :=
  does_record .output (by simp) fun _ => .outputRead

theorem does_readAndNoteOutput (hindex : index < g.nOutputs)
    (map : MerkleizedMapCommitment) (inOut : InOutInfo) (amount : UInt64) (internal : List Bool) :
    Does dev g hashes outputKinds (fun _ => True) (do
      let output ← fetch dev (readOutput dev g map inOut amount)
      record (.outputRead output)
      let internal ← fetch dev (setInternalOutput index output.isInternal internal)
      noteOutput dev output
      return internal) := by
  refine .bind (does_fetch (reads_readOutput _ _ _)) fun output hscript => ?_
  refine .bind (does_recordOutput output) fun _ _ => ?_
  refine .bind (does_fetch (reads_setInternalOutput hindex _ _)) fun internal _ => ?_
  exact .bind (does_noteOutput hscript) fun _ _ => .pure trivial

theorem does_readOutputMap (index : Nat) : Does dev g hashes fetchKinds (fun _ => True)
      (callGetMerkleizedMapWithCallback dev g.outputsRoot g.nOutputs index (outputKeysCallback dev) .zero) :=
  does_callGetMerkleizedMapWithCallback _ _ _ does_outputKeysCallback _

theorem does_preprocessOutput (hindex : index < g.nOutputs) (internal : List Bool) :
    Does dev g hashes outputsKinds (fun _ => True) (preprocessOutput dev g index internal) := by
  refine .bind ((does_readOutputMap index).mono (by simp)) fun read _ => ?_
  refine .bind (does_fetch (reads_someOr _ read)) fun read _ => ?_
  refine .bind (does_fetch (reads_checkOr _ _)) fun _ _ => ?_
  refine .bind (does_fetch (asks_fetchExact _ _ _ _).reads) fun raw _ => ?_
  refine .bind ((does_addOutputAmount _).mono (by simp)) fun _ _ => ?_
  exact (does_readAndNoteOutput hindex _ _ _ internal).mono (by simp)

theorem does_preprocessOutputsLoop (n index : Nat) (internal : List Bool) (h : index + n ≤ g.nOutputs) :
    Does dev g hashes outputsKinds (fun _ => True) (preprocessOutputsLoop dev g n index internal) := by
  induction n generalizing index internal with
  | zero => exact .pure trivial
  | succ n ih =>
    refine .bind (does_preprocessOutput (by omega) internal) fun internal _ => ?_
    exact ih _ internal (by omega)

theorem does_preprocessOutputs :
    Does dev g hashes (.reset :: outputsKinds) (fun _ => True) (preprocessOutputs dev g) := by
  refine .bind (does_modifySt .reset (by simp) (fun _ => .resetOutputs) fun _ => rfl) fun _ _ => ?_
  refine .bind ((does_preprocessOutputsLoop _ _ _ (by omega)).mono (by simp)) fun internal _ => ?_
  refine .bind does_getSt fun st _ => ?_
  refine .bind (does_fetch (asks_checkOutputs st).reads) fun _ _ => ?_
  exact .pure trivial

abbrev displayKinds : List Kind := [.session, .status, .screen]

section

-- the state does not change while the transaction is shown
variable {st : SignPsbtState}

abbrev Shows (dev : Device σ) (g : GlobalState) (hashes : TxHashes) (st : SignPsbtState) (P : α → Prop)
    (x : Sign σ α) : Prop :=
  Within (fun w => KeysOk dev g w ∧ w.st = st) (Run dev g hashes displayKinds) P x

theorem Does.shows {x : Sign σ α} (h : Does dev g hashes displayKinds P x) :
    Shows dev g hashes st P x := h.and_inv fun _ _ hrun hw => (hrun.st_eq (by simp [Kind.quiet])).trans hw

theorem shows_fetch (h : SignReads dev g P x) : Shows dev g hashes st P (fetch dev x) := (does_fetch h).shows

theorem shows_getSt : Shows dev g hashes st (· = st) (getSt : Sign σ SignPsbtState) :=
  Within.bind (P := fun w => w.st = st) (Within.get fun _ hw => hw.2) fun _ h => .pure h

theorem shows_confirmOrDeny (hscreen : FeeShown st screen) :
    Shows dev g hashes st (fun _ => True) (confirmOrDeny dev screen) := by
  refine .bind (P := fun _ => True) ?_ fun accepted _ => shows_fetch (reads_checkOr _ _).steps
  refine .bind (does_callIgnored (by simp) fun _ h => h.confirm _).shows fun answer _ => ?_
  rintro w ⟨hw, rfl⟩
  have hstep : Run dev g hashes displayKinds w (w.append [.shown screen w.st.warnings (answer.getD false)]) :=
    (Step.shown hscreen).run (by simp)
  exact ⟨hstep, ⟨hw, rfl⟩, trivial⟩

theorem shows_confirmOther (hscreen : screen.fee? = none) :
    Shows dev g hashes st (fun _ => True) (confirmOrDeny dev screen) :=
  (does_confirmOrDeny hscreen).shows

theorem shows_displayOutput (externalOutputsCount : Nat) (script : Bytes) (amount : UInt64) :
    Shows dev g hashes st (fun _ => True) (displayOutput dev externalOutputsCount script amount) := by
  refine .bind (shows_fetch (reads_someOr _ _)) fun description _ => ?_
  exact shows_getSt.bind fun _ _ => shows_confirmOther rfl

theorem does_alsoSend [Fetching kinds] {x : Sign σ α} (sw : Nat) (h : Does dev g hashes kinds P x) :
    Does dev g hashes kinds P (alsoSend dev sw x) := by
  intro w hw
  unfold alsoSend
  cases hx : x w with
  | ok a w' => exact h.ok hw hx
  | error e w' =>
    obtain ⟨hrun, hw'⟩ := h.error hw hx
    cases e with
    | fault f => exact ⟨hrun, hw'⟩
    | stopped =>
      have habort : Does dev g hashes kinds P (abort dev (.status sw none)) := does_abort _
      exact (habort w' hw').after hrun

theorem shows_externalOutput (index externalOutputsCount : Nat) :
    Shows dev g hashes st (fun _ => True) (externalOutput dev g index externalOutputsCount) := by
  refine .bind shows_getSt fun st _ => ?_
  split
  · exact .pure trivial
  · exact (does_alsoSend _ (does_fetch (asks_getOutputScriptAndAmount index).reads)).shows

theorem shows_displayExternalOutputsLoop (internal : List Bool) (index count : Nat) :
    Shows dev g hashes st (fun _ => True) (displayExternalOutputsLoop dev g internal index count) := by
  induction internal generalizing index count with
  | nil => exact .pure trivial
  | cons isInternal internal ih =>
    cases isInternal with
    | true => exact ih _ _
    | false =>
      refine .bind (shows_externalOutput index count) fun output _ => ?_
      exact (shows_displayOutput _ _ _).bind fun _ _ => ih _ _

theorem shows_displayFinalityPk : Shows dev g hashes st (fun _ => True) (displayFinalityPk dev) := by
  refine .bind shows_getSt fun st _ => ?_
  split
  · exact .pure trivial
  · exact shows_confirmOther rfl

theorem shows_confirmIf (cond : Bool) (hscreen : screen.fee? = none) :
    Shows dev g hashes st (fun _ => True) (confirmIf dev cond screen) :=
  Within.ite (fun _ => shows_confirmOther hscreen) fun _ => .pure trivial

theorem shows_displayWarnings : Shows dev g hashes st (fun _ => True) (displayWarnings dev) :=
  shows_getSt.bind fun _ _ => (shows_confirmIf _ rfl).bind fun _ _ => shows_confirmIf _ rfl

theorem shows_authorizeWalletSpend : Shows dev g hashes st (fun _ => True) (authorizeWalletSpend dev g) := by
  refine .bind (shows_fetch (reads_checkOr _ _)) fun _ _ => ?_
  exact shows_confirmOther rfl

section

variable (hst : st.warnings.highFee = st.isHighFee)

include hst

theorem feeShown_validate (isSelfTransfer : Bool) :
    FeeShown st (.validateTransaction st.fee isSelfTransfer) := by
  rintro fee ⟨⟩
  exact ⟨rfl, hst⟩

theorem feeShown_simplified (name : Bytes) (amount : UInt64) (description : Option Bytes)
    (warnings : Warnings) :
    FeeShown st (.validateTransactionSimplified name amount description warnings st.fee) := by
  rintro fee ⟨⟩
  exact ⟨rfl, hst⟩

theorem shows_displaySimplified : Shows dev g hashes st (fun _ => True) (displaySimplified dev g st) := by
  refine .ite (fun _ => shows_confirmOrDeny (feeShown_simplified hst _ _ _ _)) fun _ => ?_
  refine .bind (shows_fetch (reads_someOr _ _)) fun description _ => ?_
  exact shows_confirmOrDeny (feeShown_simplified hst _ _ _ _)

theorem shows_displaySelfTransfer : Shows dev g hashes st (fun _ => True) (displaySelfTransfer dev st) :=
  shows_displayWarnings.bind fun _ _ => (shows_confirmIf _ rfl).bind fun _ _ =>
    shows_confirmOrDeny (feeShown_validate hst true)

theorem shows_displayFull (internalOutputs : List Bool) :
    Shows dev g hashes st (fun _ => True) (displayFull dev g st internalOutputs) := by
  refine .bind (shows_confirmIf _ rfl) fun _ _ => ?_
  refine .bind shows_authorizeWalletSpend fun _ _ => ?_
  refine .bind shows_displayWarnings fun _ _ => ?_
  refine .bind shows_displayFinalityPk fun _ _ => ?_
  refine .bind (P := fun _ => True) ?_ fun _ _ => ?_
  · exact .ite (fun _ => shows_displayExternalOutputsLoop _ _ _) fun _ => .pure trivial
  · exact (shows_confirmIf _ rfl).bind fun _ _ => shows_confirmOrDeny (feeShown_validate hst false)

end

end

def SignPsbtState.displayed (st : SignPsbtState) : SignPsbtState :=
  { st with warnings := { st.warnings with highFee := st.isHighFee } }

def displayChosen (dev : Device σ) (g : GlobalState) (internalOutputs : List Bool)
    (st : SignPsbtState) : Sign σ Unit :=
  if dev.nbgl ∧ (st.nExternalOutputs = 0 ∨ st.nExternalOutputs = 1) then displaySimplified dev g st
  else if !dev.nbgl ∧ st.nExternalOutputs = 0 then displaySelfTransfer dev st
  else displayFull dev g st internalOutputs

theorem displayTransaction_eq (internalOutputs : List Bool) (w : World σ) :
    displayTransaction dev g internalOutputs w =
      displayChosen dev g internalOutputs w.st.displayed { w with st := w.st.displayed } := rfl

theorem shows_displayChosen (st : SignPsbtState) (internalOutputs : List Bool) :
    Shows dev g hashes st.displayed (fun _ => True) (displayChosen dev g internalOutputs st.displayed) := by
  have hst : st.displayed.warnings.highFee = st.displayed.isHighFee := rfl
  refine .ite (fun _ => shows_displaySimplified hst) fun _ => ?_
  exact .ite (fun _ => shows_displaySelfTransfer hst) fun _ => shows_displayFull hst internalOutputs

theorem does_displayTransaction (internalOutputs : List Bool) :
    Does dev g hashes (.fee :: displayKinds) (fun _ => True) (displayTransaction dev g internalOutputs) := by
  intro w hw
  have hfirst : Run dev g hashes (.fee :: displayKinds) w { w with st := w.st.displayed } :=
    Step.highFee.run (by simp)
  have hshows : Shows dev g hashes w.st.displayed (fun _ => True)
      (displayChosen dev g internalOutputs w.st.displayed) := shows_displayChosen w.st internalOutputs
  have hrest := hshows { w with st := w.st.displayed } ⟨hw, rfl⟩
  rw [displayTransaction_eq]
  refine Ending.after hfirst ?_
  cases h : displayChosen dev g internalOutputs w.st.displayed { w with st := w.st.displayed } with
  | ok u w' =>
    rw [h] at hrest
    exact ⟨hrest.1.mono dev g _ (by simp), hrest.2.1.1, trivial⟩
  | error e w' =>
    rw [h] at hrest
    exact ⟨hrest.1.mono dev g _ (by simp), hrest.2.1⟩

end LedgerBabylon
