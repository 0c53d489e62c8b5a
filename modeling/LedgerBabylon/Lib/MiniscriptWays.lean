import LedgerBabylon.Lib.Miniscript
import Mathlib.Algebra.Group.Pointwise.Set.Basic

/-!
# Costs of satisfactions

All ways to satisfy an expression, and all ways to dissatisfy it, with what each of them costs: how
many elements its witness has, which locks it needs, how many keys are checked when it is executed. The
table of satisfactions is the same for all of these, so that costs are taken from any commutative monoid
and the parts of a way are added up.
-/

namespace Miniscript

open scoped Pointwise

variable {M : Type}

structure Costs (M : Type) where
  /-- a signature for a key -/
  signature : M
  /-- an empty signature -/
  noSignature : M
  /-- a public key in the witness -/
  pubkey : M
  preimage : M
  /-- what is not a preimage, unless a hash counts as impossible to dissatisfy -/
  wrongPreimage : Set M
  older : Nat → M
  after : Nat → M
  multiSat : Nat → Nat → M
  multiDsat : Nat → Nat → M
  multiASat : Nat → Nat → M
  multiADsat : Nat → Nat → M
  /-- the selection of the first branch -/
  one : M
  /-- the selection of the second branch, or of none -/
  zero : M

structure Ways (M : Type) where
  sat : Set M
  dsat : Set M

namespace Ways

variable [AddCommMonoid M]

def choose : Nat → List (Ways M) → Set M
  | 0, [] => 0
  | _ + 1, [] => ∅
  | 0, x :: xs => x.dsat + choose 0 xs
  | k + 1, x :: xs => (x.sat + choose k xs) ∪ (x.dsat + choose (k + 1) xs)

theorem choose_of_length_lt {k : Nat} {xs : List (Ways M)} (h : xs.length < k) : choose k xs = ∅ := by
  induction xs generalizing k with
  | nil =>
    obtain ⟨k, rfl⟩ := Nat.exists_eq_succ_of_ne_zero h.ne'
    rfl
  | cons x xs ih =>
    obtain ⟨k, rfl⟩ := Nat.exists_eq_succ_of_ne_zero (Nat.ne_of_gt (Nat.zero_lt_of_lt h))
    have hlt : xs.length < k := Nat.lt_of_succ_lt_succ h
    rw [choose, ih hlt, ih (hlt.trans (Nat.lt_succ_self k)), Set.add_empty, Set.add_empty, Set.union_empty]

theorem choose_zero_concat (xs : List (Ways M)) (x : Ways M) :
    choose 0 (xs ++ [x]) = choose 0 xs + x.dsat := by
  induction xs with
  | nil => simp [choose]
  | cons y ys ih => rw [List.cons_append, choose, ih, choose, add_assoc]

theorem choose_succ_concat (k : Nat) (xs : List (Ways M)) (x : Ways M) :
    choose (k + 1) (xs ++ [x]) = (choose (k + 1) xs + x.dsat) ∪ (choose k xs + x.sat) := by
  induction xs generalizing k with
  | nil => cases k <;> simp [choose]
  | cons y ys ih =>
    rw [List.cons_append, choose, ih]
    cases k with
    | zero =>
      simp only [choose_zero_concat, choose, Set.add_union, Set.union_add]
      ac_rfl
    | succ k =>
      simp only [ih, choose, Set.add_union, Set.union_add]
      ac_rfl

def andor (x y z : Ways M) : Ways M := ⟨(x.sat + y.sat) ∪ (x.dsat + z.sat), x.dsat + z.dsat⟩

def andV (x y : Ways M) : Ways M := ⟨x.sat + y.sat, ∅⟩

def zero : Ways M := ⟨∅, 0⟩

def one : Ways M := ⟨0, ∅⟩

variable (c : Costs M)

def orI (x z : Ways M) : Ways M where
  sat := ({c.one} + x.sat) ∪ ({c.zero} + z.sat)
  dsat := ({c.one} + x.dsat) ∪ ({c.zero} + z.dsat)

def pkK : Ways M := ⟨{c.signature}, {c.noSignature}⟩

def pkH : Ways M := ⟨{c.signature + c.pubkey}, {c.noSignature + c.pubkey}⟩

/-- The table of satisfactions, with the canonical ways: to dissatisfy `and_b`, for example, both of its
children are dissatisfied. -/
def ofFragment : Fragment (Ways M) → Ways M
  | .zero => zero
  | .one => one
  | .pkK => pkK c
  | .pkH => pkH c
  | .older n => ⟨{c.older n}, ∅⟩
  | .after n => ⟨{c.after n}, ∅⟩
  | .hash => ⟨{c.preimage}, c.wrongPreimage⟩
  | .multi k n => ⟨{c.multiSat k n}, {c.multiDsat k n}⟩
  | .multiA k n => ⟨{c.multiASat k n}, {c.multiADsat k n}⟩
  | .andor x y z => andor x y z
  | .andV x y => andV x y
  | .andB x y => ⟨x.sat + y.sat, x.dsat + y.dsat⟩
  | .orB x z => ⟨(x.sat + z.dsat) ∪ (x.dsat + z.sat), x.dsat + z.dsat⟩
  | .orC x z => ⟨x.sat ∪ (x.dsat + z.sat), ∅⟩
  | .orD x z => ⟨x.sat ∪ (x.dsat + z.sat), x.dsat + z.dsat⟩
  | .orI x z => orI c x z
  | .thresh k xs => ⟨choose k xs, choose 0 xs⟩
  | .wrapA x | .wrapS x | .wrapC x | .wrapN x => x
  | .wrapD x => ⟨{c.one} + x.sat, {c.zero}⟩
  | .wrapV x => ⟨x.sat, ∅⟩
  | .wrapJ x => ⟨x.sat, {c.zero}⟩
  | .pk => pkK c
  | .pkh => pkH c
  | .andN x y => andor x y zero
  | .wrapT x => andV x one
  | .wrapL x => orI c zero x
  | .wrapU x => orI c x zero

end Ways

end Miniscript
