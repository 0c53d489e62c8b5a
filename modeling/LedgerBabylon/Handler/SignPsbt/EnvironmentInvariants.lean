import LedgerBabylon.Handler.SignPsbt.Loops

/-!
# Invariants of the environment during signing

A property of the environment that its operations keep holds when a signing run has ended. The only
responses on the way are signatures and MuSig2 partial signatures, so it is enough if the property
survives these.
-/

namespace LedgerBabylon

open Exec

variable {σ τ α : Type} {J : σ → Prop}

def World.In (J : σ → Prop) (w : World σ) : Prop := J w.session.env

theorem Step.reaches {dev : Device σ} {g : GlobalState} {hashes : TxHashes} {kind : Kind}
    {w w' : World σ} (h : Step dev g hashes kind w w') :
    dev.env.Reaches SigningResponse w.session.env w'.session.env := by
  cases h with
  | session h => exact h.reaches
  | _ => exact Evolution.refl _

/-- What the operations of the environment keep, and its `yield` for signatures, every run of
`handler_sign_psbt` keeps. -/
theorem handlerSignPsbt_keeps {dev : Device σ} (h : dev.env.Keeps J)
    (hyield : ∀ response, SigningResponse response → Keeps J (dev.env.yield response))
    (protocolVersion : Nat) (raw : Bytes) {env : σ} (henv : J env) :
    World.In J (finalState (handlerSignPsbt dev protocolVersion raw) (World.initial env)) := by
  obtain ⟨g, hashes, hrun⟩ := (handlerSignPsbt_ends dev protocolVersion raw env).run
  exact hrun.induction (J := World.In J) (fun _ _ _ _ hstep => hstep.reaches J h hyield) henv

@[grind ←] theorem keeps_record (e : Event) : Keeps (World.In J) (record e : Sign σ Unit) :=
  keeps_modify fun _ hw => hw

@[grind ←] theorem keeps_modifySt (f : SignPsbtState → SignPsbtState) :
    Keeps (World.In J) (modifySt f : Sign σ Unit) := keeps_modify fun _ hw => hw

@[grind ←] theorem keeps_getSt : Keeps (World.In J) (getSt : Sign σ SignPsbtState) := by
  unfold getSt
  grind

@[grind ←] theorem keeps_callIgnored {x : Ask σ α} (h : Keeps J x) :
    Keeps (World.In J) (callIgnored x) := by
  rw [keeps_iff] at h ⊢
  intro w hw
  have hx := h w.session.env hw
  unfold finalState callIgnored at *
  cases hr : x w.session.env with
  | ok a e => simpa only [hr, World.In] using hx
  | error fault e => cases fault <;> simpa only [hr, World.In] using hx

variable {dev : Device σ} (h : dev.env.Keeps J)
include h

@[grind ←] theorem keeps_sendStatus (sw : Nat) (ec : Option Nat) :
    Keeps (World.In J) (sendStatus dev sw ec) := by
  unfold sendStatus
  grind

@[grind ←] theorem keeps_abort (failure : Failure) :
    Keeps (World.In J) (abort dev failure : Sign σ α) := by
  unfold abort
  grind

@[grind ←] theorem keeps_fetch {x : Fetch σ α} (hx : Asks dev x) :
    Keeps (World.In J) (fetch dev x) := by
  have hkeeps := hx.keeps h
  have habort (failure : Failure) : Keeps (World.In J) (abort dev failure : Sign σ α) := keeps_abort h failure
  simp only [keeps_iff] at hkeeps habort ⊢
  intro w hw
  have hs := hkeeps w.session hw
  unfold finalState fetch at *
  cases hr : x w.session with
  | ok a s =>
    rw [hr] at hs
    exact hs
  | error failure s =>
    rw [hr] at hs
    exact habort failure { w with session := s } hs

@[grind ←] theorem keeps_callGetMerkleizedMapWithCallback (root : Digest) (size index : Nat)
    {callback : MerkleizedMapCommitment → Nat → Bytes → τ → Sign σ τ}
    (hcallback : ∀ map i key t, Keeps (World.In J) (callback map i key t)) (t : τ) :
    Keeps (World.In J) (callGetMerkleizedMapWithCallback dev root size index callback t) := by
  apply keeps_bind (keeps_fetch h (asks_fetchMapCommitment _ _ _))
  intro map
  cases map with
  | none => exact keeps_pure _
  | some map =>
    refine keeps_bind (steps_checkSortedLoop (fun i => ?_) (hcallback map) _ _ _ _) fun _ => keeps_pure _
    exact keeps_fetch h (asks_sortedElement _ _ _)

@[grind ←] theorem keeps_inputKeysCallback (map : MerkleizedMapCommitment) (index : Nat)
    (key : Bytes) (input : InputInfo) :
    Keeps (World.In J) (inputKeysCallback dev map index key input) := by
  unfold inputKeysCallback noteInputDerivation
  grind

@[grind ←] theorem keeps_outputKeysCallback (map : MerkleizedMapCommitment) (index : Nat)
    (key : Bytes) (inOut : InOutInfo) :
    Keeps (World.In J) (outputKeysCallback dev map index key inOut) := by
  unfold outputKeysCallback
  split
  · exact keeps_pure _
  · split
    · apply keeps_bind (keeps_fetch h (asks_readDerivation _ _ _ _))
      intro result
      grind
    · exact keeps_pure _

end LedgerBabylon
