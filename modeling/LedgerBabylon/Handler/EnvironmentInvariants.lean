import LedgerBabylon.Handler.Fetch
import LedgerBabylon.Lib.Within

/-!
# Invariants of the environment

A handler acts on the environment only through its operations, so what all of them keep holds as long
as the handler runs. The operation that sends a response is left out here, since it depends on the
response what it keeps. The rules are for `grind`, which goes through the definition of a program along
its binds.
-/

namespace LedgerBabylon

open Exec

variable {σ τ α : Type} {J : σ → Prop}

structure Environment.Keeps (env : Environment σ) (J : σ → Prop) : Prop where
  preimage (hash : Digest) (outLen : Nat) : Exec.Keeps J (env.preimage hash outLen)
  leafElement (root : Digest) (size index : UInt32) (outLen : Nat) :
    Exec.Keeps J (env.leafElement root size index outLen)
  mapValue (map : MerkleizedMapCommitment) (key : Bytes) (outLen : Nat) :
    Exec.Keeps J (env.mapValue map key outLen)
  streamMapValue (map : MerkleizedMapCommitment) (key : Bytes) : Exec.Keeps J (env.streamMapValue map key)
  rawtx (map : MerkleizedMapCommitment) (key : Bytes) (outputIndex : UInt32) :
    Exec.Keeps J (env.rawtx map key outputIndex)
  bip32Derivation (keyType : UInt8) (valuesRoot : Digest) (size index : UInt32) :
    Exec.Keeps J (env.bip32Derivation keyType valuesRoot size index)
  sendSw (sw : Nat) (ec : Option Nat) : Exec.Keeps J (env.sendSw sw ec)
  confirm (screen : Screen) : Exec.Keeps J (env.confirm screen)
  musigRound2 (psbtSessionId : Digest) : Exec.Keeps J (env.musigRound2 psbtSessionId)

attribute [grind ←] Environment.Keeps.preimage Environment.Keeps.leafElement
  Environment.Keeps.mapValue Environment.Keeps.streamMapValue Environment.Keeps.rawtx
  Environment.Keeps.bip32Derivation Environment.Keeps.sendSw
  Environment.Keeps.confirm Environment.Keeps.musigRound2

def Session.In (J : σ → Prop) (s : Session σ) : Prop := J s.env

@[grind ←] theorem keeps_attempt {x : Ask σ α} (h : Keeps J x) : Keeps J (attempt x) := by
  rw [keeps_iff] at h ⊢
  intro e he
  have hx := h e he
  unfold finalState attempt at *
  cases hr : x e with
  | ok a e' => simpa only [hr] using hx
  | error fault e' => cases fault <;> simpa only [hr] using hx

@[grind ←] theorem keeps_ask {x : Ask σ α} (h : Keeps J x) : Keeps (Session.In J) (ask x) := by
  rw [keeps_iff] at h ⊢
  intro s hs
  have hx := h s.env hs
  unfold finalState ask at *
  cases hr : x s.env with
  | ok a e => simpa only [hr, Session.In] using hx
  | error fault e => simpa only [hr, Session.In] using hx

@[grind ←] theorem keeps_useArrays (uses : List ArrayUse) :
    Keeps (Session.In J) (useArrays uses : Query σ Unit) := keeps_modify fun _ hs => hs

@[grind ←] theorem keeps_ofOption (o : Option α) : Keeps (Session.In J) (ofOption o : Query σ α) := by
  unfold ofOption
  grind

section

variable {dev : Device σ} (wdi : WalletDerivationInfo)

@[grind ←] theorem keeps_parseKeyInfo (version : Nat) (info : Bytes) :
    Keeps (Session.In J) (parseKeyInfo dev version info) := by
  unfold parseKeyInfo
  grind

@[grind ←] theorem keeps_deriveFirstStepForPubkey (base : ExtPubkey) (keyExpr : KeyExpr)
    (useCache isChange : Bool) :
    Keeps (Session.In J) (deriveFirstStepForPubkey dev base keyExpr useCache isChange) := by
  unfold deriveFirstStepForPubkey
  grind [Session.In]

variable (h : dev.env.Keeps J)
include h

@[grind ←] theorem keeps_fetchKeyInfo (version : Nat) (root : Digest) (nKeys keyIndex : Nat) :
    Keeps (Session.In J) (fetchKeyInfo dev version root nKeys keyIndex) := by
  unfold fetchKeyInfo
  grind

@[grind ←] theorem keeps_getExtendedPubkeyFromClient (keyIndex : Nat) :
    Keeps (Session.In J) (getExtendedPubkeyFromClient dev wdi keyIndex) := by
  unfold getExtendedPubkeyFromClient
  grind

@[grind ←] theorem keeps_musigClientKeys (keyIndexes : List Nat) :
    Keeps (Session.In J) (musigClientKeys dev wdi keyIndexes) := by
  fun_induction musigClientKeys with grind

@[grind ←] theorem keeps_getDerivedPubkey (keyExpr : KeyExpr) :
    Keeps (Session.In J) (getDerivedPubkey dev wdi keyExpr) := by
  unfold getDerivedPubkey keyexprRoot
  grind

end

/-- The states of the environment that its operations can lead to, with responses of the kind `Y`. -/
def Environment.Reaches (env : Environment σ) (Y : Bytes → Prop) (e e' : σ) : Prop :=
  ∀ J, env.Keeps J → (∀ response, Y response → Exec.Keeps J (env.yield response)) → J e → J e'

instance (env : Environment σ) (Y : Bytes → Prop) : Evolution (env.Reaches Y) where
  refl _ _ _ _ he := he
  trans h h' J hJ hY he := h' J hJ hY (h J hJ hY he)

def Session.Asked (dev : Device σ) (s s' : Session σ) : Prop :=
  ∃ e, s' = { s with env := e } ∧ dev.env.Reaches (fun _ => False) s.env e

instance (dev : Device σ) : Evolution (Session.Asked dev) where
  refl s := ⟨s.env, rfl, Evolution.refl s.env⟩
  trans := by
    rintro s _ _ ⟨e, rfl, he⟩ ⟨e', rfl, he'⟩
    exact ⟨e', rfl, Evolution.trans he he'⟩

def Asks {ε : Type} (dev : Device σ) (x : EStateM ε (Session σ) α) : Prop :=
  Steps (fun _ => True) (Session.Asked dev) x

variable {ε β : Type} {dev : Device σ}

theorem Asks.keeps {x : EStateM ε (Session σ) α} (hx : Asks dev x) (h : dev.env.Keeps J) :
    Keeps (Session.In J) x := by
  rw [keeps_iff]
  intro s hs
  obtain ⟨⟨e, heq, he⟩, -⟩ := hx.finalState (s := s) trivial
  rw [heq]
  exact he J h (fun _ => False.elim) hs

@[grind ←] theorem asks_pure (a : α) : Asks dev (pure a : EStateM ε (Session σ) α) := Within.pure trivial

@[grind ←] theorem asks_throw (e : ε) : Asks dev (throw e : EStateM ε (Session σ) α) := Within.throw

@[grind ←] theorem asks_bind {x : EStateM ε (Session σ) α} {f : α → EStateM ε (Session σ) β}
    (hx : Asks dev x) (hf : ∀ a, Asks dev (f a)) : Asks dev (x >>= f) := Within.bind hx fun a _ => hf a

@[grind ←] theorem asks_ask {x : Ask σ α} (h : ∀ J, dev.env.Keeps J → Keeps J x) :
    Asks dev (ask x) := by
  have hreach (e : σ) : dev.env.Reaches (fun _ => False) e (finalState x e) := fun J hJ _ he =>
    keeps_iff.mp (h J hJ) e he
  intro s _
  have hs := hreach s.env
  unfold ask
  unfold finalState at hs
  cases hx : x s.env with
  | ok a e =>
    rw [hx] at hs
    exact ⟨⟨e, rfl, hs⟩, trivial, trivial⟩
  | error fault e =>
    rw [hx] at hs
    exact ⟨⟨e, rfl, hs⟩, trivial⟩

@[grind ←] theorem asks_query {x : Query σ α} (h : Asks dev x) : Asks dev (query x) := by
  intro s _
  have hs := h s trivial
  unfold query
  cases hx : x s with
  | ok a s' =>
    rw [hx] at hs
    exact hs
  | error fault s' =>
    rw [hx] at hs
    cases fault with
    | ret code => exact ⟨hs.1, trivial, trivial⟩
    | _ => exact hs

@[grind ←] theorem asks_call {x : Ask σ α} (h : ∀ J, dev.env.Keeps J → Keeps J x) :
    Asks dev (call x) := asks_query (asks_ask h)

@[grind ←] theorem asks_ofOption (o : Option α) : Asks dev (ofOption o : Query σ α) := by
  unfold ofOption
  grind

@[grind ←] theorem asks_fail (sw : Nat) : Asks dev (fail sw : Fetch σ α) := asks_throw _

@[grind ←] theorem asks_failEc (sw ec : Nat) : Asks dev (failEc sw ec : Fetch σ α) := asks_throw _

@[grind ←] theorem asks_undefinedBehaviour : Asks dev (undefinedBehaviour : Fetch σ α) := asks_throw _

@[grind ←] theorem asks_okOr (sw : Nat) (r : Except Int α) : Asks dev (okOr sw r : Fetch σ α) := by
  unfold okOr
  grind

@[grind ←] theorem asks_someOr (sw : Nat) (o : Option α) : Asks dev (someOr sw o : Fetch σ α) := by
  unfold someOr
  grind

@[grind ←] theorem asks_checkOr (sw : Nat) (cond : Bool) :
    Asks dev (checkOr sw cond : Fetch σ Unit) := by
  unfold checkOr
  grind

@[grind ←] theorem keeps_mapValueU32Le (h : dev.env.Keeps J) (map : MerkleizedMapCommitment)
    (key : Bytes) : Keeps J (dev.env.mapValueU32Le map key) := by
  unfold Environment.mapValueU32Le
  grind

@[grind ←] theorem asks_readAndParseWalletPolicy (raw : Bytes) :
    Asks dev (readAndParseWalletPolicy dev raw) := by
  unfold readAndParseWalletPolicy fetchTemplate
  grind

@[grind ←] theorem asks_fetchLen (map : MerkleizedMapCommitment) (key : UInt8) (len : Nat) :
    Asks dev (fetchLen dev map key len) := by
  unfold fetchLen
  grind

@[grind ←] theorem asks_fetchExact (map : MerkleizedMapCommitment) (key : UInt8) (len sw : Nat) :
    Asks dev (fetchExact dev map key len sw) := by
  unfold fetchExact
  grind

theorem steps_checkSortedLoop {s : Type} {I : s → Prop} {R : s → s → Prop} [Evolution R]
    {element : Nat → EStateM ε s (Except Int Bytes)} {callback : Nat → Bytes → τ → EStateM ε s τ}
    (helement : ∀ i, Steps I R (element i)) (hcallback : ∀ i el t, Steps I R (callback i el t))
    (n curElIdx : Nat) (prevEl : Bytes) (t : τ) :
    Steps I R (checkSortedLoop element callback n curElIdx prevEl t) := by
  induction n generalizing curElIdx prevEl t with
  | zero => exact .pure trivial
  | succ n ih =>
    refine .bind (helement curElIdx) fun answer _ => ?_
    cases answer with
    | error code => exact .pure trivial
    | ok curEl =>
      refine .ite (fun _ => Within.pure trivial) fun _ => ?_
      exact (hcallback curElIdx curEl t).bind fun _ _ => ih _ _ _

@[grind ←] theorem asks_sortedElement (root : Digest) (size index : Nat) :
    Asks dev (sortedElement dev root size index) := by
  unfold sortedElement
  grind

@[grind ←] theorem asks_callCheckMerkleTreeSorted (root : Digest) (size : Nat) :
    Asks dev (callCheckMerkleTreeSorted dev root size) :=
  steps_checkSortedLoop (asks_sortedElement root _) (fun _ _ _ => Within.pure trivial) _ _ _ _

@[grind ←] theorem asks_fetchMapCommitment (root : Digest) (size index : Nat) :
    Asks dev (fetchMapCommitment dev root size index) := by
  unfold fetchMapCommitment
  grind

@[grind ←] theorem asks_callGetMerkleizedMap (root : Digest) (size index : Nat) :
    Asks dev (callGetMerkleizedMap dev root size index) := by
  unfold callGetMerkleizedMap
  grind

end LedgerBabylon
