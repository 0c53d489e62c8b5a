import LedgerBabylon.Lib.Within

/-!
# Refinement of programs

A program refines another one if what it returns the other one returns as well, from whatever state
it starts. The two have states of their own: the first may keep caches and talk to an environment that
the second knows nothing of. What the first one does to its state is described as in `Within`, and
does not depend on the condition under which the results agree.
-/

namespace Exec

variable {ε σ τ α β : Type} {I : σ → Prop} {R : σ → σ → Prop} {Q : Prop} {P P' : α → Prop} {P₂ : β → Prop}

/-- `x` stays within `I` and `R`, and if `Q` holds, what it returns is returned by `y`. -/
structure Refines (I : σ → Prop) (R : σ → σ → Prop) (Q : Prop) (P : α → Prop) (x : EStateM ε σ α)
    (y : EStateM ε τ α) : Prop where
  within : Within I R P x
  returns : Q → ∀ s a s', I s → x s = .ok a s' → ∀ t, ∃ t', y t = .ok a t'

namespace Refines

variable {x : EStateM ε σ α} {y : EStateM ε τ α} {a : α}

theorem mono (h : Refines I R Q P x y)
    (hP : ∀ a, P a → P' a) : Refines I R Q P' x y := ⟨h.within.mono hP, h.returns⟩

theorem returned? (h : Refines I R Q P x y) (hQ : Q) {s s' : σ}
    (hI : I s) (hx : x s = .ok a s') (t : τ) : Exec.returned? y t = some a := by
  obtain ⟨t', hy⟩ := h.returns hQ s a s' hI hx t
  simp only [Exec.returned?, hy]

section

variable [Evolution R]

theorem pure (h : P a) : Refines I R Q P (pure a : EStateM ε σ α) (pure a : EStateM ε τ α) := by
  refine ⟨Within.pure h, fun _ s b s' _ hx t => ?_⟩
  obtain ⟨rfl, -⟩ := pure_ok hx
  exact ⟨t, rfl⟩

theorem throw {e : ε} : Refines I R Q P (throw e : EStateM ε σ α) y :=
  ⟨Within.throw, fun _ s a s' _ hx => by simp at hx⟩

theorem bind {f : α → EStateM ε σ β} {g : α → EStateM ε τ β} (hx : Refines I R Q P x y)
    (hf : ∀ a, P a → Refines I R Q P₂ (f a) (g a)) : Refines I R Q P₂ (x >>= f) (y >>= g) := by
  refine ⟨hx.within.bind fun a ha => (hf a ha).within, fun hQ s b s'' hI h t => ?_⟩
  obtain ⟨a, s', hxs, hfs⟩ := bind_ok h
  obtain ⟨-, hI', ha⟩ := hx.within.ok hI hxs
  obtain ⟨t', hyt⟩ := hx.returns hQ s a s' hI hxs t
  obtain ⟨t'', hgt⟩ := (hf a ha).returns hQ s' b s'' hI' hfs t'
  exact ⟨t'', bind_ok_iff.mpr ⟨a, t', hyt, hgt⟩⟩

theorem then_pure {f : α → β} (hx : Refines I R Q P x y) (hf : ∀ a, P a → P₂ (f a)) :
    Refines I R Q P₂ (x >>= fun a => Pure.pure (f a)) (y >>= fun a => Pure.pure (f a)) :=
  hx.bind fun a ha => Refines.pure (hf a ha)

end

theorem ite {c : Prop} [Decidable c] {x1 x2 : EStateM ε σ α} {y1 y2 : EStateM ε τ α}
    (h1 : c → Refines I R Q P x1 y1) (h2 : ¬c → Refines I R Q P x2 y2) :
    Refines I R Q P (if c then x1 else x2) (if c then y1 else y2) := by
  split
  · exact h1 ‹_›
  · exact h2 ‹_›

end Refines

end Exec
