import Mathlib.Tactic.Common
import Mathlib.Logic.Function.Basic

/-!
# Climbing a hash tree

A path from a value to a root is a list of steps, each a direction and a sibling. Climbing it hashes
the two children of every node on the way. Two paths with the same directions that reach the same
root carry the same value and the same siblings, or two different messages with one hash occur among
those hashed.
-/

namespace HashPath

open List

variable {D M : Type} (hash : M → D) (node : D → D → M)

def Collides (messages : List M) : Prop := ∃ x ∈ messages, ∃ y ∈ messages, x ≠ y ∧ hash x = hash y

instance [DecidableEq M] [DecidableEq D] (messages : List M) : Decidable (Collides hash messages) :=
  inferInstanceAs (Decidable (∃ x ∈ messages, ∃ y ∈ messages, x ≠ y ∧ hash x = hash y))

theorem Collides.mono {l1 l2 : List M} (h : Collides hash l1) (hsub : l1 ⊆ l2) : Collides hash l2 := by
  obtain ⟨x, hx, y, hy, hne, heq⟩ := h
  exact ⟨x, hsub hx, y, hsub hy, hne, heq⟩

/-- The message hashed at a node: the current value is the right child if `right` holds. -/
def ordered (right : Bool) (current sibling : D) : M :=
  if right then node sibling current else node current sibling

theorem ordered_injective (hnode : Function.Injective2 node) {right : Bool} {c1 c2 s1 s2 : D}
    (h : ordered node right c1 s1 = ordered node right c2 s2) : c1 = c2 ∧ s1 = s2 := by
  cases right with
  | false => exact hnode h
  | true => exact (hnode h).symm

def climb (value : D) : List (Bool × D) → D
  | [] => value
  | (right, sibling) :: path => climb (hash (ordered node right value sibling)) path

def messages (value : D) : List (Bool × D) → List M
  | [] => []
  | (right, sibling) :: path =>
    ordered node right value sibling :: messages (hash (ordered node right value sibling)) path

theorem climb_append (value : D) (p q : List (Bool × D)) :
    climb hash node value (p ++ q) = climb hash node (climb hash node value p) q := by
  induction p generalizing value with
  | nil => rfl
  | cons step p ih => exact ih _

theorem messages_append (value : D) (p q : List (Bool × D)) : messages hash node value (p ++ q)
      = messages hash node value p ++ messages hash node (climb hash node value p) q := by
  induction p generalizing value with
  | nil => rfl
  | cons step p ih => exact congrArg _ (ih _)

/-- **Binding.** Two climbs in the same directions to the same root started from the same value with
the same siblings, or exhibit a collision. -/
theorem climb_binding (hnode : Function.Injective2 node) {v w : D} {p q : List (Bool × D)}
    (hdirs : p.map Prod.fst = q.map Prod.fst) (hroot : climb hash node v p = climb hash node w q) :
    (v = w ∧ p = q) ∨ Collides hash (messages hash node v p ++ messages hash node w q) := by
  induction p generalizing v w q with
  | nil =>
    obtain rfl : q = [] := by simpa using hdirs.symm
    exact Or.inl ⟨hroot, rfl⟩
  | cons step p ih =>
    obtain ⟨right, sibling⟩ := step
    cases q with
    | nil => simp at hdirs
    | cons step' q =>
      obtain ⟨right', sibling'⟩ := step'
      simp only [map_cons, cons.injEq] at hdirs
      obtain ⟨rfl, htail⟩ := hdirs
      rcases ih htail hroot with ⟨hhash, rfl⟩ | hcollides
      · by_cases hmsg : ordered node right v sibling = ordered node right w sibling'
        · obtain ⟨rfl, rfl⟩ := ordered_injective node hnode hmsg
          exact Or.inl ⟨rfl, rfl⟩
        · exact Or.inr ⟨_, by simp [messages], _, by simp [messages], hmsg, hhash⟩
      · refine Or.inr (hcollides.mono hash fun m hm => ?_)
        simp only [messages, mem_append, mem_cons] at hm ⊢
        tauto

theorem climb_eq_hash (value : D) {p : List (Bool × D)} (hp : p ≠ []) :
    ∃ m ∈ messages hash node value p, hash m = climb hash node value p := by
  induction p generalizing value with
  | nil => exact absurd rfl hp
  | cons step p ih =>
    obtain ⟨right, sibling⟩ := step
    by_cases htail : p = []
    · subst htail
      exact ⟨_, mem_cons_self, rfl⟩
    · obtain ⟨m, hm, heq⟩ := ih (hash (ordered node right value sibling)) htail
      exact ⟨m, mem_cons_of_mem _ hm, heq⟩

theorem exists_node_of_mem_messages {value : D} {p : List (Bool × D)} {m : M}
    (h : m ∈ messages hash node value p) : ∃ l r, m = node l r := by
  induction p generalizing value with
  | nil => cases h
  | cons step p ih =>
    obtain ⟨right, sibling⟩ := step
    rcases mem_cons.mp h with rfl | hmem
    · cases right with
      | false => exact ⟨value, sibling, rfl⟩
      | true => exact ⟨sibling, value, rfl⟩
    · exact ih hmem

end HashPath
