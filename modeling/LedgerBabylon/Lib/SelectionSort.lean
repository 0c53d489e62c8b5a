import Mathlib.Data.List.Perm.Basic
import Mathlib.Tactic.Common

/-!
# Sorting by selection

The smallest value that has not been used is looked for again and again, and the positions of the values
found are remembered as used. The search starts from a value above all others and replaces the best one
so far by a smaller one only, so that equal values are found in their order.
-/

namespace SelectionSort

open List

variable {V : Type} (less : V → V → Bool)

def smallest (used : List Nat) : List V → Nat → Option Nat × V → Option Nat × V
  | [], _, best => best
  | v :: vs, j, best =>
    if j ∈ used then smallest used vs (j + 1) best
    else smallest used vs (j + 1) (if less v best.2 then (some j, v) else best)

def selection (top : V) (vs : List V) : Nat → List Nat → Option (List V)
  | 0, _ => some []
  | n + 1, used =>
    match smallest less used vs 0 (none, top) with
    | (none, _) => none
    | (some j, v) => (selection top vs n (j :: used)).map (v :: ·)

def unused (used : List Nat) : List V → Nat → List V
  | [], _ => []
  | v :: vs, j => if j ∈ used then unused used vs (j + 1) else v :: unused used vs (j + 1)

theorem unused_nil (vs : List V) (j : Nat) : unused [] vs j = vs := by
  induction vs generalizing j with
  | nil => rfl
  | cons v vs ih => simp [unused, ih]

theorem mem_of_mem_unused {used : List Nat} {vs : List V} {j : Nat} {v : V} (h : v ∈ unused used vs j) :
    v ∈ vs := by
  induction vs generalizing j with
  | nil => exact h
  | cons w vs ih =>
    rw [unused] at h
    split_ifs at h
    · exact mem_cons_of_mem w (ih h)
    · rcases mem_cons.mp h with rfl | h
      · exact mem_cons_self
      · exact mem_cons_of_mem w (ih h)

theorem unused_cons_of_lt {used : List Nat} {vs : List V} {i j : Nat} (h : i < j) :
    unused (i :: used) vs j = unused used vs j := by
  induction vs generalizing j with
  | nil => rfl
  | cons v vs ih =>
    have hij : j ≠ i := by omega
    rw [unused, unused, ih (by omega)]
    simp [hij]

structure IsOrder (less : V → V → Bool) : Prop where
  asymm : ∀ a b, less a b → less b a = false
  trans : ∀ a b c, less a b = false → less b c = false → less a c = false

variable {less}

theorem IsOrder.irrefl (h : IsOrder less) (a : V) : less a a = false := by
  by_contra hlt
  rw [Bool.not_eq_false] at hlt
  exact absurd (h.asymm a a hlt) (by simp [hlt])

structure Found (less : V → V → Bool) (used : List Nat) (vs : List V) (j : Nat) (best : V) (i : Nat)
    (v : V) : Prop where
  from_start : j ≤ i
  less_best : less v best
  perm : (v :: unused (i :: used) vs j).Perm (unused used vs j)
  least : ∀ w ∈ unused used vs j, less w v = false

section

variable {used : List Nat} {vs : List V} {i j : Nat} {best best' u v : V}

theorem Found.cons_used (h : Found less used vs (j + 1) best i v) (hused : j ∈ used) :
    Found less used (u :: vs) j best i v := by
  have hperm := h.perm
  have hleast := h.least
  refine ⟨Nat.le_of_succ_le h.from_start, h.less_best, ?_, ?_⟩
  · rwa [unused, if_pos (mem_cons_of_mem i hused), unused, if_pos hused]
  · rwa [unused, if_pos hused]

theorem Found.cons_unused (h : Found less used vs (j + 1) best i v) (hused : j ∉ used)
    (hu : less u v = false) (hbest : less v best') : Found less used (u :: vs) j best' i v := by
  have hij : j ≠ i := Nat.ne_of_lt h.from_start
  refine ⟨Nat.le_of_succ_le h.from_start, hbest, ?_, ?_⟩
  · rw [unused, if_neg (by simp [hij, hused]), unused, if_neg hused]
    exact (Perm.swap u v _).trans (h.perm.cons u)
  · rw [unused, if_neg hused, forall_mem_cons]
    exact ⟨hu, h.least⟩

end

theorem smallest_cases (hless : IsOrder less) (used : List Nat) (vs : List V) (j : Nat)
    (best : Option Nat × V) :
    (smallest less used vs j best = best ∧ ∀ w ∈ unused used vs j, less w best.2 = false) ∨
      ∃ i v, smallest less used vs j best = (some i, v) ∧ Found less used vs j best.2 i v := by
  induction vs generalizing j best with
  | nil => exact .inl ⟨rfl, by simp [unused]⟩
  | cons u vs ih =>
    by_cases hused : j ∈ used
    · rw [smallest, if_pos hused, unused, if_pos hused]
      rcases ih (j + 1) best with hkept | ⟨i, v, hv, hfound⟩
      · exact .inl hkept
      · exact .inr ⟨i, v, hv, hfound.cons_used hused⟩
    · rw [smallest, if_neg hused, unused, if_neg hused, forall_mem_cons]
      by_cases hu : less u best.2
      · rw [if_pos hu]
        right
        rcases ih (j + 1) (some j, u) with ⟨heq, hrest⟩ | ⟨i, v, hv, hfound⟩
        · refine ⟨j, u, heq, Nat.le_refl j, hu, ?_, ?_⟩
          · rw [unused, if_pos mem_cons_self, unused, if_neg hused, unused_cons_of_lt (Nat.lt_succ_self j)]
          · rw [unused, if_neg hused, forall_mem_cons]
            exact ⟨hless.irrefl u, hrest⟩
        · have huv := hless.asymm v u hfound.less_best
          have hbest : less v best.2 := by
            by_contra hnot
            rw [Bool.not_eq_true] at hnot
            rw [hless.trans u v best.2 huv hnot] at hu
            cases hu
          exact ⟨i, v, hv, hfound.cons_unused hused huv hbest⟩
      · rw [if_neg hu]
        rw [Bool.not_eq_true] at hu
        rcases ih (j + 1) best with ⟨heq, hrest⟩ | ⟨i, v, hv, hfound⟩
        · exact .inl ⟨heq, hu, hrest⟩
        · have huv := hless.trans u best.2 v hu (hless.asymm v best.2 hfound.less_best)
          exact .inr ⟨i, v, hv, hfound.cons_unused hused huv hfound.less_best⟩

theorem selection_of_unused (hless : IsOrder less) {top : V} {vs : List V}
    (htop : ∀ v ∈ vs, less v top) {n : Nat} {used : List Nat}
    (hn : (unused used vs 0).length = n) :
    ∃ out, selection less top vs n used = some out ∧ out.Perm (unused used vs 0) ∧
      out.Pairwise fun a b => less b a = false := by
  induction n generalizing used with
  | zero =>
    rw [length_eq_zero_iff] at hn
    exact ⟨[], rfl, by rw [hn], Pairwise.nil⟩
  | succ n ih =>
    rcases smallest_cases hless used vs 0 (none, top) with ⟨-, hnone⟩ | ⟨i, v, hv, hfound⟩
    · obtain ⟨w, hw⟩ := exists_mem_of_length_eq_add_one hn
      have hlt := htop w (mem_of_mem_unused hw)
      rw [hnone w hw] at hlt
      cases hlt
    · have hlen := hfound.perm.length_eq
      rw [length_cons, hn] at hlen
      obtain ⟨out, hout, hperm, hsorted⟩ := ih (Nat.succ.inj hlen)
      have hall : (v :: out).Perm (unused used vs 0) := (hperm.cons v).trans hfound.perm
      refine ⟨v :: out, ?_, hall, pairwise_cons.mpr ⟨?_, hsorted⟩⟩
      · rw [selection, hv]
        show (selection less top vs n (i :: used)).map (v :: ·) = some (v :: out)
        rw [hout]
        rfl
      · intro w hw
        exact hfound.least w (hall.subset (mem_cons_of_mem v hw))

theorem selection_sorts (hless : IsOrder less) {top : V} {vs : List V} (htop : ∀ v ∈ vs, less v top) :
    ∃ out, selection less top vs vs.length [] = some out ∧ out.Perm vs ∧
      out.Pairwise fun a b => less b a = false := by
  have hvs := selection_of_unused hless htop (congrArg length (unused_nil vs 0))
  rwa [unused_nil] at hvs

end SelectionSort
