import LedgerBabylon.Lib.Exec
import Mathlib.Logic.Relation

/-!
# What a program may do to its state

A relation between the states before and after a run describes what the run may do, whether it
returns or fails, if an invariant holds at its start; the invariant then holds at its end. If the
relation is reflexive and transitive, it is enough to know it for the single steps. A returned value
can have a property that later steps depend on.
-/

namespace Exec

variable {ε σ α β : Type} {I : σ → Prop} {R R' : σ → σ → Prop} {P P' : α → Prop} {Q : β → Prop}

variable {s s' : σ} {result : EStateM.Result ε σ α} {a : α} {e : ε} {c : Prop} {y : EStateM ε σ α}

class Evolution (R : σ → σ → Prop) : Prop where
  refl (s : σ) : R s s
  trans {s s' s'' : σ} : R s s' → R s' s'' → R s s''

instance : Evolution (fun _ _ : σ => True) := ⟨fun _ => trivial, fun _ _ => trivial⟩

instance : Evolution (Relation.ReflTransGen R) := ⟨fun _ => .refl, .trans⟩

/-- The end of a run from `s`: `R` relates the states before and after, and `I` holds; a returned value
satisfies `P`. -/
def Ending (I : σ → Prop) (R : σ → σ → Prop) (P : α → Prop) (s : σ) : EStateM.Result ε σ α → Prop
  | .ok a s' => R s s' ∧ I s' ∧ P a
  | .error _ s' => R s s' ∧ I s'

def Within (I : σ → Prop) (R : σ → σ → Prop) (P : α → Prop) (x : EStateM ε σ α) : Prop :=
  ∀ s, I s → Ending I R P s (x s)

abbrev Steps (I : σ → Prop) (R : σ → σ → Prop) (x : EStateM ε σ α) : Prop := Within I R (fun _ => True) x

def WithinFrom (J I : σ → Prop) (R : σ → σ → Prop) (P : α → Prop) (x : EStateM ε σ α) : Prop :=
  ∀ s, J s → I s → Ending I R P s (x s)

theorem Ending.mono (h : Ending I R P s result) (hP : ∀ a, P a → P' a) : Ending I R P' s result := by
  cases result with
  | ok a s' => exact ⟨h.1, h.2.1, hP a h.2.2⟩
  | error e s' => exact h

theorem Ending.after [Evolution R] (hR : R s s') (h : Ending I R P s' result) : Ending I R P s result := by
  cases result with
  | ok a s'' => exact ⟨Evolution.trans hR h.1, h.2⟩
  | error e s'' => exact ⟨Evolution.trans hR h.1, h.2⟩

variable {x : EStateM ε σ α}

variable {f : α → EStateM ε σ β}

theorem Ending.bind [Evolution R] (hx : x s = .ok a s')
    (hR : R s s') (h : Ending I R Q s' (f a s')) : Ending I R Q s ((x >>= f) s) := by
  rw [bind_of_ok hx]
  exact h.after hR

namespace Within

theorem finalState (h : Within I R P x) (hI : I s) : R s (finalState x s) ∧ I (Exec.finalState x s) := by
  have hs := h s hI
  unfold Exec.finalState
  cases hx : x s with
  | ok a s' =>
    rw [hx] at hs
    exact ⟨hs.1, hs.2.1⟩
  | error e s' =>
    rw [hx] at hs
    exact hs

theorem ok (h : Within I R P x) (hI : I s) (hx : x s = .ok a s') : R s s' ∧ I s' ∧ P a := by
  have hs := h s hI
  rw [hx] at hs
  exact hs

theorem run_ok (h : Within I R P x) (hx : x s = .ok a s') (hI : I s) : R s s' ∧ I s' ∧ P a := h.ok hI hx

theorem error (h : Within I R P x) (hI : I s) (hx : x s = .error e s') : R s s' ∧ I s' := by
  have hs := h s hI
  rw [hx] at hs
  exact hs

theorem of_cases (hok : ∀ s a s', I s → x s = .ok a s' → R s s' ∧ I s' ∧ P a)
    (herror : ∀ s e s', I s → x s = .error e s' → R s s' ∧ I s') : Within I R P x := by
  intro s hI
  cases hx : x s with
  | ok a s' => exact hok s a s' hI hx
  | error e s' => exact herror s e s' hI hx

theorem mono (h : Within I R P x) (hP : ∀ a, P a → P' a) : Within I R P' x := fun s hI => (h s hI).mono hP

theorem imp (h : Within I R P x) (hR : ∀ s s', R s s' → R' s s') : Within I R' P x :=
  of_cases (fun _ _ _ hI hx => ⟨hR _ _ (h.ok hI hx).1, (h.ok hI hx).2⟩)
    fun _ _ _ hI hx => ⟨hR _ _ (h.error hI hx).1, (h.error hI hx).2⟩

theorem steps (h : Within I R P x) : Steps I R x := h.mono fun _ _ => trivial

theorem and_inv {J : σ → Prop} (h : Within I R P x)
    (hJ : ∀ s s', R s s' → J s → J s') : Within (fun s => I s ∧ J s) R P x := by
  refine of_cases (fun s a s' hs hx => ?_) fun s e s' hs hx => ?_
  · obtain ⟨hR, hI, ha⟩ := h.ok hs.1 hx
    exact ⟨hR, ⟨hI, hJ s s' hR hs.2⟩, ha⟩
  · obtain ⟨hR, hI⟩ := h.error hs.1 hx
    exact ⟨hR, hI, hJ s s' hR hs.2⟩

section

variable [Evolution R]

theorem pure (h : P a) : Within I R P (pure a : EStateM ε σ α) := fun s hI => ⟨Evolution.refl s, hI, h⟩

theorem throw : Within I R P (throw e : EStateM ε σ α) := fun s hI => ⟨Evolution.refl s, hI⟩

theorem get {P : σ → Prop} (h : ∀ s, I s → P s) : Within I R P (get : EStateM ε σ σ) :=
  fun s hI => ⟨Evolution.refl s, hI, h s hI⟩

theorem bind_run (hx : Within I R P x)
    (hf : ∀ a s s', I s → x s = .ok a s' → Within I R Q (f a)) : Within I R Q (x >>= f) := by
  intro s hI
  cases h : x s with
  | ok a s' =>
    obtain ⟨hR, hI', -⟩ := hx.ok hI h
    exact Ending.bind h hR (hf a s s' hI h s' hI')
  | error e s' =>
    rw [bind_of_error h]
    exact hx.error hI h

theorem bind (hx : Within I R P x) (hf : ∀ a, P a → Within I R Q (f a)) : Within I R Q (x >>= f) :=
  hx.bind_run fun a _ _ hI h => hf a (hx.ok hI h).2.2

theorem bind_inv {J : α → σ → Prop} (hx : Within I R P x) (hJ : ∀ s a s', I s → x s = .ok a s' → J a s')
    (hf : ∀ a, P a → WithinFrom (J a) I R Q (f a)) : Within I R Q (x >>= f) := by
  intro s hI
  cases h : x s with
  | ok a s' =>
    obtain ⟨hR, hI', ha⟩ := hx.ok hI h
    exact Ending.bind h hR (hf a ha s' (hJ s a s' hI h) hI')
  | error e s' =>
    rw [bind_of_error h]
    exact hx.error hI h

end

theorem modify {f : σ → σ} (h : ∀ s, I s → R s (f s) ∧ I (f s)) : Steps I R (modify f : EStateM ε σ PUnit) :=
  fun s hI => ⟨(h s hI).1, (h s hI).2, trivial⟩

theorem ite [Decidable c] (hx : c → Within I R P x)
    (hy : ¬c → Within I R P y) : Within I R P (if c then x else y) := by
  split
  · exact hx ‹_›
  · exact hy ‹_›

end Within

namespace WithinFrom

variable {J : σ → Prop} {x : EStateM ε σ α}

theorem of_within (h : Within I R P x) : WithinFrom J I R P x := fun s _ hI => h s hI

theorem modify {f : σ → σ} (h : ∀ s, J s → I s → R s (f s) ∧ I (f s)) :
    WithinFrom J I R (fun _ => True) (modify f : EStateM ε σ PUnit) :=
  fun s hJ hI => ⟨(h s hJ hI).1, (h s hJ hI).2, trivial⟩

theorem ite [Decidable c] (hx : c → WithinFrom J I R P x)
    (hy : ¬c → WithinFrom J I R P y) : WithinFrom J I R P (if c then x else y) := by
  split
  · exact hx ‹_›
  · exact hy ‹_›

variable [Evolution R] {f : α → EStateM ε σ β}

theorem bind (hx : WithinFrom J I R P x) (hf : ∀ a, P a → Within I R Q (f a)) :
    WithinFrom J I R Q (x >>= f) := by
  intro s hJ hI
  have hs := hx s hJ hI
  cases h : x s with
  | ok a s' =>
    rw [h] at hs
    obtain ⟨hR, hI', ha⟩ := hs
    exact Ending.bind h hR (hf a ha s' hI')
  | error e s' =>
    rw [h] at hs
    rw [bind_of_error h]
    exact hs

theorem bind_stays (hx : Within (fun s => I s ∧ J s) R P x)
    (hf : ∀ a, P a → WithinFrom J I R Q (f a)) : WithinFrom J I R Q (x >>= f) := by
  intro s hJ hI
  cases h : x s with
  | ok a s' =>
    obtain ⟨hR, ⟨hI', hJ'⟩, ha⟩ := hx.ok ⟨hI, hJ⟩ h
    exact Ending.bind h hR (hf a ha s' hJ' hI')
  | error e s' =>
    rw [bind_of_error h]
    obtain ⟨hR, hI', -⟩ := hx.error ⟨hI, hJ⟩ h
    exact ⟨hR, hI'⟩

end WithinFrom

def Keeps (I : σ → Prop) (x : EStateM ε σ α) : Prop := Steps I (fun _ _ => True) x

@[grind ←] theorem keeps_pure (a : α) : Keeps I (pure a : EStateM ε σ α) := Within.pure trivial

@[grind ←] theorem keeps_throw (e : ε) : Keeps I (throw e : EStateM ε σ α) := Within.throw

@[grind ←] theorem keeps_get : Keeps I (get : EStateM ε σ σ) := Within.get fun _ _ => trivial

@[grind ←] theorem keeps_bind (hx : Keeps I x)
    (hf : ∀ a, Keeps I (f a)) : Keeps I (x >>= f) := Within.bind hx fun a _ => hf a

@[grind ←] theorem keeps_modify {f : σ → σ} (h : ∀ s, I s → I (f s)) :
    Keeps I (modify f : EStateM ε σ PUnit) := Within.modify fun s hs => ⟨trivial, h s hs⟩

theorem keeps_iff : Keeps I x ↔ ∀ s, I s → I (finalState x s) := by
  constructor
  · intro h s hs
    exact (Within.finalState h hs).2
  · intro h
    apply Within.of_cases
    · intro s a s' hs hx
      have hfinal := h s hs
      rw [finalState, hx] at hfinal
      exact ⟨trivial, hfinal, trivial⟩
    · intro s e s' hs hx
      have hfinal := h s hs
      rw [finalState, hx] at hfinal
      exact ⟨trivial, hfinal⟩

theorem keeps_onPart {τ : Type} {J : τ → Prop} {part : τ → σ} {put : τ → σ → τ}
    (h : ∀ t s, J t → J (put t s)) (x : EStateM ε σ α) : Keeps J (onPart part put x) := by
  rw [keeps_iff]
  intro t ht
  unfold finalState onPart
  cases x (part t) <;> exact h t _ ht

end Exec
