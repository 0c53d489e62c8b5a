import LedgerBabylon.Lib.Exec

/-!
# When a program returns

The domain of a program is described by two conditions that do not depend on its state: one is enough
for it to return, the other holds if it has returned. The first is that of a whole program, the second
is put together from what its parts have needed. The rules follow the structure of the program, so that
both directions are shown at once.
-/

namespace Exec

variable {ε σ α β : Type} {I : σ → Prop} {C C' D' : Prop} {P P' : α → Prop} {Q : β → Prop}

/-- From a state in `I` the program returns if `C` holds. If it returns, then `C'` holds, `I` holds
again and the value satisfies `P`. -/
def Decides (I : σ → Prop) (C C' : Prop) (P : α → Prop) (x : EStateM ε σ α) : Prop :=
  ∀ s, I s → (C → ∃ a s', x s = .ok a s') ∧ ∀ a s', x s = .ok a s' → C' ∧ I s' ∧ P a

namespace Decides

variable {x : EStateM ε σ α} {a : α} {f : α → EStateM ε σ β}

theorem imp (h : Decides I C C' P x) (hC' : C' → D') : Decides I C D' P x := by
  intro s hs
  refine ⟨(h s hs).1, fun a s' hx => ?_⟩
  obtain ⟨hreturned, hrest⟩ := (h s hs).2 a s' hx
  exact ⟨hC' hreturned, hrest⟩

theorem mono (h : Decides I C C' P x) (hP : ∀ a, P a → P' a) : Decides I C C' P' x := by
  intro s hs
  refine ⟨(h s hs).1, fun a s' hx => ?_⟩
  obtain ⟨hreturned, hs', ha⟩ := (h s hs).2 a s' hx
  exact ⟨hreturned, hs', hP a ha⟩

theorem pure (hC' : C') (ha : P a) : Decides I C C' P (pure a : EStateM ε σ α) := by
  intro s hs
  refine ⟨fun _ => ⟨a, s, rfl⟩, fun b s' hb => ?_⟩
  obtain ⟨rfl, rfl⟩ := pure_ok hb
  exact ⟨hC', hs, ha⟩

theorem throw {e : ε} (hC : ¬C) : Decides I C C' P (throw e : EStateM ε σ α) :=
  fun _ _ => ⟨fun h => absurd h hC, fun _ _ h => (throw_ok_iff.mp h).elim⟩

theorem get {P : σ → Prop} (hC' : C') (hP : ∀ s, I s → P s) : Decides I C C' P (get : EStateM ε σ σ) := by
  intro s hs
  refine ⟨fun _ => ⟨s, s, rfl⟩, fun a s' ha => ?_⟩
  obtain ⟨rfl, rfl⟩ := get_ok_iff.mp ha
  exact ⟨hC', hs, hP s hs⟩

theorem modify {f : σ → σ} (hC' : C') (hf : ∀ s, I s → I (f s)) :
    Decides I C C' (fun _ => True) (modify f : EStateM ε σ PUnit) := by
  intro s hs
  refine ⟨fun _ => ⟨⟨⟩, f s, rfl⟩, fun a s' ha => ?_⟩
  obtain rfl := modify_ok_iff.mp ha
  exact ⟨hC', hf s hs, trivial⟩

theorem bind (hx : Decides I C C' P x)
    (hf : ∀ a, P a → Decides I C D' Q (f a)) : Decides I C (C' ∧ D') Q (x >>= f) := by
  intro s hs
  constructor
  · intro hC
    obtain ⟨a, s', hxs⟩ := (hx s hs).1 hC
    obtain ⟨-, hs', ha⟩ := (hx s hs).2 a s' hxs
    obtain ⟨b, s'', hfs⟩ := (hf a ha s' hs').1 hC
    exact ⟨b, s'', bind_ok_iff.mpr ⟨a, s', hxs, hfs⟩⟩
  · intro b s'' h
    obtain ⟨a, s', hxs, hfs⟩ := bind_ok h
    obtain ⟨hC', hs', ha⟩ := (hx s hs).2 a s' hxs
    obtain ⟨hD', hrest⟩ := (hf a ha s' hs').2 b s'' hfs
    exact ⟨⟨hC', hD'⟩, hrest⟩

theorem after (hx : Decides I C True P x)
    (hf : ∀ a, P a → Decides I C C' Q (f a)) : Decides I C C' Q (x >>= f) := (hx.bind hf).imp And.right

theorem then_returns (hx : Decides I C C' P x)
    (hf : ∀ a, P a → Decides I C True Q (f a)) : Decides I C C' Q (x >>= f) := (hx.bind hf).imp And.left

theorem then_pure (hx : Decides I C C' P x) {f : α → β} (hf : ∀ a, P a → Q (f a)) :
    Decides I C C' Q (x >>= fun a => Pure.pure (f a)) :=
  hx.then_returns fun a ha => Decides.pure trivial (hf a ha)

theorem ite {c : Prop} [Decidable c] {y : EStateM ε σ α} (hx : c → Decides I C C' P x)
    (hy : ¬c → Decides I C C' P y) : Decides I C C' P (if c then x else y) := by
  split
  · exact hx ‹_›
  · exact hy ‹_›

theorem of_ok (h : Decides I C C' P x) {s s' : σ} (hs : I s)
    (hx : x s = .ok a s') : C' := ((h s hs).2 a s' hx).1

theorem yields (h : Decides I C C' (· = a) x) (hC : C) : Yields I x a := by
  intro s hs
  obtain ⟨b, s', hx⟩ := (h s hs).1 hC
  obtain ⟨-, hs', rfl⟩ := (h s hs).2 b s' hx
  exact ⟨s', hx, hs'⟩

end Decides

end Exec
