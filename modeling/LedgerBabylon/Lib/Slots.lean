import Mathlib.Algebra.GroupWithZero.Nat
import Mathlib.Logic.Function.Basic
import Mathlib.Data.List.FinRange
import Mathlib.Tactic.Common

/-!
# Tables of slots

A table has a fixed number of slots, each of which is free or holds an entry with a key. An entry is
deleted by key, and a new one takes the place of an old one with its key, goes to a free slot, or
overwrites the first slot when none is free. Keys other than that of a free slot stay distinct.
-/

namespace Slots

open List

variable {α κ : Type} {n : Nat}

variable {t t' : Fin n → α} {p : α → Bool} {x : α}

def first (t : Fin n → α) (p : α → Bool) : Option (Fin n) := (List.finRange n).find? fun i => p (t i)

theorem of_first_eq_some {i : Fin n} (h : first t p = some i) : p (t i) := by
  have hfound := find?_some h
  exact hfound

theorem of_first_eq_none (h : first t p = none) (i : Fin n) : p (t i) = false := by
  have hnot := find?_eq_none.mp h i (mem_finRange i)
  simpa using hnot

section

variable (key : α → κ) (free : α)

def KeysDistinct (t : Fin n → α) : Prop := ∀ i j, key (t i) = key (t j) → key (t i) ≠ key free → i = j

def delete [DecidableEq κ] (k : κ) (t : Fin n → α) : Fin n → α :=
  match first t (fun x => key x = k) with
  | none => t
  | some i => Function.update t i free

/-- Put an entry in a free slot, or in the first slot if there is none; an entry with the same key is
deleted before. -/
def store [DecidableEq α] [DecidableEq κ] [NeZero n] (x : α) (t : Fin n → α) : Fin n → α :=
  let t := delete key free (key x) t
  Function.update t ((first t fun y => y = free).getD 0) x

end

variable {key : α → κ} {free : α}

def Shrinks (free : α) (t t' : Fin n → α) : Prop := ∀ i, t' i = t i ∨ t' i = free

theorem Shrinks.trans {t'' : Fin n → α} (h : Shrinks free t t') (h' : Shrinks free t' t'') :
    Shrinks free t t'' := by
  intro i
  rcases h' i with hi | hi
  · rw [hi]
    exact h i
  · exact .inr hi

theorem shrinks_update (t : Fin n → α) (slot : Fin n) : Shrinks free t (Function.update t slot free) := by
  intro i
  by_cases hi : i = slot
  · subst hi
    exact .inr (Function.update_self ..)
  · exact .inl (Function.update_of_ne hi ..)

theorem KeysDistinct.shrinks (h : KeysDistinct key free t)
    (hshrinks : Shrinks free t t') : KeysDistinct key free t' := by
  intro i j hij hne
  rcases hshrinks i with hi | hi
  · rcases hshrinks j with hj | hj
    · rw [hi, hj] at hij
      rw [hi] at hne
      exact h i j hij hne
    · rw [hj] at hij
      exact absurd hij hne
  · rw [hi] at hne
    exact absurd rfl hne

theorem KeysDistinct.update (h : KeysDistinct key free t) (hnew : ∀ i, key (t i) ≠ key x)
    (slot : Fin n) : KeysDistinct key free (Function.update t slot x) := by
  intro i j hij hne
  by_cases hi : i = slot
  · by_cases hj : j = slot
    · rw [hi, hj]
    · rw [hi, Function.update_self, Function.update_of_ne hj] at hij
      exact absurd hij.symm (hnew j)
  · rw [Function.update_of_ne hi] at hij hne
    by_cases hj : j = slot
    · rw [hj, Function.update_self] at hij
      exact absurd hij (hnew i)
    · rw [Function.update_of_ne hj] at hij
      exact h i j hij hne

variable [DecidableEq κ]

theorem delete_cases (k : κ) (t : Fin n → α) : (delete key free k t = t ∧ ∀ i, key (t i) ≠ k)
      ∨ ∃ slot, key (t slot) = k ∧ delete key free k t = Function.update t slot free := by
  rcases hfirst : first t (fun x => key x = k) with _ | slot
  · refine .inl ⟨by simp only [delete, hfirst], fun i => ?_⟩
    simpa using of_first_eq_none hfirst i
  · refine .inr ⟨slot, ?_, by simp only [delete, hfirst]⟩
    simpa using of_first_eq_some hfirst

theorem shrinks_delete (key : α → κ) (free : α) (k : κ) (t : Fin n → α) :
    Shrinks free t (delete key free k t) := by
  rcases delete_cases k t with ⟨heq, -⟩ | ⟨slot, -, heq⟩
  · rw [heq]
    exact fun i => .inl rfl
  · rw [heq]
    exact shrinks_update t slot

theorem KeysDistinct.key_delete_ne (h : KeysDistinct key free t) {k : κ}
    (hk : k ≠ key free) (i : Fin n) : key (delete key free k t i) ≠ k := by
  rcases delete_cases k t with ⟨heq, hnone⟩ | ⟨slot, hslot, heq⟩
  · rw [heq]
    exact hnone i
  · rw [heq]
    by_cases hi : i = slot
    · subst hi
      rw [Function.update_self]
      exact hk.symm
    · rw [Function.update_of_ne hi]
      intro hki
      exact hi (h i slot (hki.trans hslot.symm) (by rw [hki]; exact hk))

variable [DecidableEq α] [NeZero n]

theorem store_eq_update (key : α → κ) (free x : α) (t : Fin n → α) :
    ∃ slot, store key free x t = Function.update (delete key free (key x) t) slot x := ⟨_, rfl⟩

theorem KeysDistinct.store (h : KeysDistinct key free t)
    (hx : key x ≠ key free) : KeysDistinct key free (store key free x t) := by
  obtain ⟨slot, heq⟩ := store_eq_update key free x t
  rw [heq]
  exact (h.shrinks (shrinks_delete key free (key x) t)).update (h.key_delete_ne hx) slot

end Slots
