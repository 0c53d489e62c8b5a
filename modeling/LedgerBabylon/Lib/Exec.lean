import Mathlib.Tactic.Common

/-!
# Programs that can fail and keep their state

A run of `EStateM ε σ` ends in `.ok a s` or in `.error e s`, and the state survives the failure. The
rules here take a successful run apart along its binds, so that a proof about a long sequence of
operations is a chain of named intermediate states.
-/

namespace Exec

variable {ε ι σ τ α β : Type}

variable {s s'' s' : σ} {e : ε} {u : PUnit}

def finalState (x : EStateM ε σ α) (s : σ) : σ :=
  match x s with
  | .ok _ s' => s'
  | .error _ s' => s'

def returned? (x : EStateM ε σ α) (s : σ) : Option α :=
  match x s with
  | .ok a _ => some a
  | .error _ _ => none

def fault? (x : EStateM ε σ α) (s : σ) : Option ε :=
  match x s with
  | .ok _ _ => none
  | .error e _ => some e

/-- A run on a part of the state. -/
def onPart (part : τ → σ) (put : τ → σ → τ) (x : EStateM ε σ α) : EStateM ε τ α := fun t =>
  match x (part t) with
  | .ok a s => .ok a (put t s)
  | .error e s => .error e (put t s)

variable {x : EStateM ε σ α}

theorem error_of_fault? (h : fault? x s = some e) : x s = .error e (finalState x s) := by
  simp only [fault?, finalState] at h ⊢
  split at h <;> simp_all

theorem ok_of_returned? {a : α} (h : returned? x s = some a) : x s = .ok a (finalState x s) := by
  simp only [returned?, finalState] at h ⊢
  split at h <;> simp_all

variable {f : α → EStateM ε σ β}

theorem bind_ok_iff {b : β} : (x >>= f) s = .ok b s'' ↔ ∃ a s', x s = .ok a s' ∧ f a s' = .ok b s'' := by
  change EStateM.bind x f s = .ok b s'' ↔ _
  unfold EStateM.bind
  cases h : x s with
  | ok a s' =>
    constructor
    · intro hf
      exact ⟨a, s', rfl, hf⟩
    · rintro ⟨a', s1, heq, hf⟩
      cases heq
      exact hf
  | error e s' => simp

theorem bind_ok {b : β} (h : (x >>= f) s = .ok b s'') : ∃ a s', x s = .ok a s' ∧ f a s' = .ok b s'' :=
  bind_ok_iff.mp h

theorem bind_error_iff : (x >>= f) s = .error e s'' ↔
      x s = .error e s'' ∨ ∃ a s', x s = .ok a s' ∧ f a s' = .error e s'' := by
  change EStateM.bind x f s = .error e s'' ↔ _
  unfold EStateM.bind
  cases h : x s with
  | ok a s' =>
    constructor
    · intro hf
      exact .inr ⟨a, s', rfl, hf⟩
    · rintro (heq | ⟨a', s1, heq, hf⟩) <;> cases heq
      exact hf
  | error e' s' => simp

theorem bind_of_ok {a : α} (hx : x s = .ok a s') : (x >>= f) s = f a s' := by
  change EStateM.bind x f s = f a s'
  simp only [EStateM.bind, hx]

theorem bind_of_error (hx : x s = .error e s') : (x >>= f) s = .error e s' := by
  change EStateM.bind x f s = .error e s'
  simp only [EStateM.bind, hx]

theorem get_bind_apply (f : σ → EStateM ε σ β) (s : σ) : (get >>= f) s = f s s := rfl

theorem finalState_bind_cases (x : EStateM ε σ α) (f : α → EStateM ε σ β) (s : σ) :
    (∃ a s', x s = .ok a s' ∧ finalState (x >>= f) s = finalState (f a) s') ∨
    ∃ e s', x s = .error e s' ∧ finalState (x >>= f) s = s' := by
  cases h : x s with
  | ok a s' => exact .inl ⟨a, s', rfl, by simp only [finalState, bind_of_ok h]⟩
  | error e s' => exact .inr ⟨e, s', rfl, by simp only [finalState, bind_of_error h]⟩

theorem map_apply_eq_iff {f g : α → β} :
    (f <$> x) s = (g <$> x) s ↔ ∀ a, returned? x s = some a → f a = g a := by
  show EStateM.map f x s = EStateM.map g x s ↔ _
  simp only [EStateM.map, returned?]
  cases x s <;> simp

@[simp] theorem pure_ok_iff {a b : α} : (pure a : EStateM ε σ α) s = .ok b s' ↔ a = b ∧ s = s' := by
  change EStateM.Result.ok a s = .ok b s' ↔ _
  simp

theorem pure_ok {a b : α} (h : (pure a : EStateM ε σ α) s = .ok b s') : a = b ∧ s = s' := pure_ok_iff.mp h

@[simp] theorem throw_ok_iff {b : α} : (throw e : EStateM ε σ α) s = .ok b s' ↔ False := by
  change EStateM.Result.error e s = .ok b s' ↔ _
  simp

@[simp] theorem get_ok_iff {a : σ} : (get : EStateM ε σ σ) s = .ok a s' ↔ s = a ∧ s = s' := by
  change EStateM.Result.ok s s = .ok a s' ↔ _
  simp

@[simp] theorem set_ok_iff {t : σ} : (set t : EStateM ε σ PUnit) s = .ok u s' ↔ t = s' := by
  change EStateM.Result.ok ⟨⟩ t = .ok u s' ↔ _
  simp

@[simp] theorem modify_ok_iff {f : σ → σ} :
    (modify f : EStateM ε σ PUnit) s = .ok u s' ↔ f s = s' := by
  change EStateM.Result.ok ⟨⟩ (f s) = .ok u s' ↔ _
  simp

theorem forM_map_check {f : α → β} {check : β → EStateM ε σ Unit} {p : α → Bool}
    (h : ∀ a, check (f a) = if p a then pure () else throw e) (xs : List α) :
    (xs.map f).forM check = if xs.all p then pure () else throw e := by
  induction xs with
  | nil => rfl
  | cons x xs ih =>
    rw [List.map_cons, List.forM, ih, h x, List.all_cons]
    cases p x <;> rfl

variable {P Q R I : σ → Prop} {x : EStateM ε σ α} {f : α → EStateM ε σ β} {a : α} {b : β}

/-- From every state with `P`, the program returns the value in a state with `Q`. -/
def Runs (P : σ → Prop) (x : EStateM ε σ α) (a : α) (Q : σ → Prop) : Prop :=
  ∀ s, P s → ∃ s', x s = .ok a s' ∧ Q s'

theorem runs_pure (a : α) : Runs P (pure a : EStateM ε σ α) a P := fun s hs => ⟨s, rfl, hs⟩

theorem Runs.bind (hx : Runs P x a Q) (hf : Runs Q (f a) b R) : Runs P (x >>= f) b R := by
  intro s hs
  obtain ⟨s', hxs, hs'⟩ := hx s hs
  rw [bind_of_ok hxs]
  exact hf s' hs'

theorem runs_get_bind {f : σ → EStateM ε σ β} (h : ∀ s, P s → Runs P (f s) b R) : Runs P (get >>= f) b R :=
  fun s hs => h s hs s hs

/-- From every state with the invariant, the program returns the value and keeps the invariant. -/
def Yields (I : σ → Prop) (x : EStateM ε σ α) (a : α) : Prop := ∀ s, I s → ∃ s', x s = .ok a s' ∧ I s'

theorem yields_pure (I : σ → Prop) (a : α) : Yields I (pure a : EStateM ε σ α) a := runs_pure a

theorem Yields.bind (hx : Yields I x a) (hf : Yields I (f a) b) : Yields I (x >>= f) b := Runs.bind hx hf

end Exec
