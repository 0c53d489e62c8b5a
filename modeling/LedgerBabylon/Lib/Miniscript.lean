import Mathlib.Data.List.Basic
import Mathlib.Order.Nat
import Mathlib.Tactic.Ring

/-!
# Miniscript

The fragments of the language and the tables that define its types, its malleability properties and
its satisfactions. A table is a function of one fragment whose children are replaced by their own
entries, so that the entry of an expression is obtained by folding the table over it.
-/

namespace Miniscript

open List

inductive Context where
  | p2wsh
  | tapscript
  deriving DecidableEq, Repr

/-- One node of an expression with children in `α`. The last six are abbreviations. Keys and hash values
do not matter for any table. -/
inductive Fragment (α : Type) where
  | zero
  | one
  | pkK
  | pkH
  | older (n : Nat)
  | after (n : Nat)
  | hash
  | multi (k n : Nat)
  | multiA (k n : Nat)
  | andor (x y z : α)
  | andV (x y : α)
  | andB (x y : α)
  | orB (x z : α)
  | orC (x z : α)
  | orD (x z : α)
  | orI (x z : α)
  | thresh (k : Nat) (xs : List α)
  | wrapA (x : α)
  | wrapS (x : α)
  | wrapC (x : α)
  | wrapD (x : α)
  | wrapV (x : α)
  | wrapJ (x : α)
  | wrapN (x : α)
  | pk
  | pkh
  | andN (x y : α)
  | wrapT (x : α)
  | wrapL (x : α)
  | wrapU (x : α)

def Fragment.children {α : Type} : Fragment α → List α
  | .zero | .one | .pkK | .pkH | .older _ | .after _ | .hash | .multi _ _ | .multiA _ _ | .pk | .pkh => []
  | .andor x y z => [x, y, z]
  | .andV x y | .andB x y | .orB x y | .orC x y | .orD x y | .orI x y | .andN x y => [x, y]
  | .thresh _ xs => xs
  | .wrapA x | .wrapS x | .wrapC x | .wrapD x | .wrapV x | .wrapJ x | .wrapN x | .wrapT x | .wrapL x
  | .wrapU x => [x]

inductive BaseType where
  | B
  | V
  | K
  | W
  deriving DecidableEq, Repr

structure Typ where
  base : BaseType
  z : Bool
  o : Bool
  n : Bool
  d : Bool
  u : Bool
  deriving DecidableEq, Repr

def oneArg : List Typ → Bool
  | [] => false
  | x :: xs => (x.z && oneArg xs) || (x.o && xs.all Typ.z)

theorem all_z_eq (xs : List Typ) : xs.all Typ.z = decide (xs.countP Typ.z = xs.length) := by
  rw [Bool.eq_iff_iff, all_eq_true, decide_eq_true_eq, countP_eq_length]

/-- As no type has both `z` and `o`, counting them tells whether one child has `o` and the others
have `z`. -/
theorem oneArg_eq {xs : List Typ} (hxs : ∀ x ∈ xs, ¬ (x.z ∧ x.o)) :
    oneArg xs = (decide (xs.countP Typ.z + 1 = xs.length) && decide (xs.countP Typ.o = 1)) := by
  induction xs with
  | nil => rfl
  | cons x xs ih =>
    rw [forall_mem_cons] at hxs
    have hle := countP_le_length (p := Typ.z) (l := xs)
    have hnone : xs.countP Typ.z = xs.length → xs.countP Typ.o = 0 := by
      rw [countP_eq_length, countP_eq_zero]
      exact fun hall y hy ho => hxs.2 y hy ⟨hall y hy, ho⟩
    rw [oneArg, ih hxs.2, all_z_eq, countP_cons, countP_cons, length_cons, Bool.eq_iff_iff]
    simp only [Bool.or_eq_true, Bool.and_eq_true, decide_eq_true_eq]
    cases hz : x.z <;> cases ho : x.o
    · simp only [Bool.false_eq_true, if_false, false_and, or_false, false_iff]
      omega
    · simp only [Bool.false_eq_true, if_false, if_true, false_and, true_and, false_or]
      omega
    · simp only [Bool.false_eq_true, if_false, if_true, false_and, true_and, or_false]
      omega
    · exact absurd ⟨hz, ho⟩ hxs.1

namespace Typ

def zero : Typ := ⟨.B, true, false, false, true, true⟩

def one : Typ := ⟨.B, true, false, false, false, true⟩

def pkK : Typ := ⟨.K, false, true, true, true, true⟩

def pkH : Typ := ⟨.K, false, false, true, true, true⟩

def andor (x y z : Typ) : Option Typ :=
  if x.base = .B ∧ x.d ∧ x.u ∧ y.base = z.base ∧ y.base ≠ .W then
    some ⟨y.base, x.z && y.z && z.z, (x.z && y.o && z.o) || (x.o && y.z && z.z), false, z.d, y.u && z.u⟩
  else none

def andV (x y : Typ) : Option Typ :=
  if x.base = .V ∧ y.base ≠ .W then
    some ⟨y.base, x.z && y.z, (x.z && y.o) || (y.z && x.o), x.n || (x.z && y.n), false, y.u⟩
  else none

def orI (x z : Typ) : Option Typ :=
  if x.base = z.base ∧ x.base ≠ .W then
    some ⟨x.base, false, x.z && z.z, false, x.d || z.d, x.u && z.u⟩
  else none

def wrapC (x : Typ) : Option Typ :=
  if x.base = .K then some ⟨.B, false, x.o, x.n, x.d, true⟩ else none

/-- The correctness table: the type of a fragment from the types of its children, if they meet the
requirements of the fragment. -/
def ofFragment (ctx : Context) : Fragment Typ → Option Typ
  | .zero => some zero
  | .one => some one
  | .pkK => some pkK
  | .pkH => some pkH
  | .older n | .after n =>
    if 1 ≤ n ∧ n < 2 ^ 31 then some ⟨.B, true, false, false, false, false⟩ else none
  | .hash => some ⟨.B, false, true, true, true, true⟩
  | .multi k n =>
    if ctx = .p2wsh ∧ 1 ≤ k ∧ k ≤ n ∧ n ≤ 20 then some ⟨.B, false, false, true, true, true⟩
    else none
  | .multiA k n =>
    if ctx = .tapscript ∧ 1 ≤ k ∧ k ≤ n then some ⟨.B, false, false, false, true, true⟩ else none
  | .andor x y z => andor x y z
  | .andV x y => andV x y
  | .andB x y =>
    if x.base = .B ∧ y.base = .W then
      some ⟨.B, x.z && y.z, (x.z && y.o) || (y.z && x.o), x.n || (x.z && y.n), x.d && y.d, true⟩
    else none
  | .orB x z =>
    if x.base = .B ∧ x.d ∧ z.base = .W ∧ z.d then
      some ⟨.B, x.z && z.z, (x.z && z.o) || (z.z && x.o), false, true, true⟩
    else none
  | .orC x z =>
    if x.base = .B ∧ x.d ∧ x.u ∧ z.base = .V then
      some ⟨.V, x.z && z.z, x.o && z.z, false, false, false⟩
    else none
  | .orD x z =>
    if x.base = .B ∧ x.d ∧ x.u ∧ z.base = .B then
      some ⟨.B, x.z && z.z, x.o && z.z, false, z.d, z.u⟩
    else none
  | .orI x z => orI x z
  | .thresh k xs =>
    if 1 ≤ k ∧ k ≤ xs.length ∧ (∀ x ∈ xs.head?, x.base = .B) ∧ (∀ x ∈ xs.tail, x.base = .W)
        ∧ ∀ x ∈ xs, x.d ∧ x.u then
      some ⟨.B, xs.all Typ.z, oneArg xs, false, true, true⟩
    else none
  | .wrapA x => if x.base = .B then some ⟨.W, false, false, false, x.d, x.u⟩ else none
  | .wrapS x => if x.base = .B ∧ x.o then some ⟨.W, false, false, false, x.d, x.u⟩ else none
  | .wrapC x => wrapC x
  | .wrapD x =>
    if x.base = .V ∧ x.z then some ⟨.B, false, true, true, true, ctx = .tapscript⟩ else none
  | .wrapV x => if x.base = .B then some ⟨.V, x.z, x.o, x.n, false, false⟩ else none
  | .wrapJ x => if x.base = .B ∧ x.n then some ⟨.B, false, x.o, true, true, x.u⟩ else none
  | .wrapN x => if x.base = .B then some ⟨.B, x.z, x.o, x.n, x.d, true⟩ else none
  | .pk => wrapC pkK
  | .pkh => wrapC pkH
  | .andN x y => andor x y zero
  | .wrapT x => andV x one
  | .wrapL x => orI zero x
  | .wrapU x => orI x zero

end Typ

/-- The properties `s` (needs a signature), `f` (no dissatisfaction without one), `e` (a unique
dissatisfaction) and `m` (a satisfaction that is not malleable exists). -/
structure Mal where
  s : Bool
  f : Bool
  e : Bool
  m : Bool
  deriving DecidableEq, Repr

namespace Mal

def zero : Mal := ⟨true, false, true, true⟩

def one : Mal := ⟨false, true, false, true⟩

def key : Mal := ⟨true, false, true, true⟩

def andor (x y z : Mal) : Mal where
  s := z.s && (x.s || y.s)
  f := z.f && (x.s || y.f)
  e := z.e && (x.s || y.f)
  m := x.m && y.m && z.m && x.e && (x.s || y.s || z.s)

def andV (x y : Mal) : Mal := ⟨x.s || y.s, x.s || y.f, false, x.m && y.m⟩

def orI (x z : Mal) : Mal where
  s := x.s && z.s
  f := x.f && z.f
  e := (x.e && z.f) || (z.e && x.f)
  m := x.m && z.m && (x.s || z.s)

def wrapC (x : Mal) : Mal := { x with s := true }

def ofFragment : Fragment Mal → Mal
  | .zero => zero
  | .one => one
  | .pkK | .pkH | .multi _ _ | .multiA _ _ => key
  | .older _ | .after _ => ⟨false, true, false, true⟩
  | .hash => ⟨false, false, false, true⟩
  | .andor x y z => andor x y z
  | .andV x y => andV x y
  | .andB x y =>
    { s := x.s || y.s
      f := (x.f && y.f) || (x.s && x.f) || (y.s && y.f)
      e := x.e && y.e && x.s && y.s
      m := x.m && y.m }
  | .orB x z => ⟨x.s && z.s, false, true, x.m && z.m && x.e && z.e && (x.s || z.s)⟩
  | .orC x z => ⟨x.s && z.s, true, false, x.m && z.m && x.e && (x.s || z.s)⟩
  | .orD x z => ⟨x.s && z.s, z.f, z.e, x.m && z.m && x.e && (x.s || z.s)⟩
  | .orI x z => orI x z
  | .thresh k xs =>
    { s := xs.countP (fun x => !x.s) + 1 ≤ k
      f := false
      e := xs.all Mal.s
      m := xs.all Mal.m && xs.all Mal.e && xs.countP (fun x => !x.s) ≤ k }
  | .wrapA x | .wrapS x | .wrapN x => x
  | .wrapC x => wrapC x
  | .wrapD x => ⟨x.s, false, true, x.m⟩
  | .wrapV x => ⟨x.s, true, false, x.m⟩
  | .wrapJ x => ⟨x.s, false, x.f, x.m⟩
  | .pk | .pkh => wrapC key
  | .andN x y => andor x y zero
  | .wrapT x => andV x one
  | .wrapL x => orI zero x
  | .wrapU x => orI x zero

theorem m_of_mem_children {fr : Fragment Mal} (h : (ofFragment fr).m) {x : Mal}
    (hx : x ∈ fr.children) : x.m := by
  cases fr with
  | thresh k xs =>
    simp only [ofFragment, Bool.and_eq_true, all_eq_true] at h
    exact h.1.1 x hx
  | zero | one | pkK | pkH | older | after | hash | multi | multiA | pk | pkh =>
    simp [Fragment.children] at hx
  | _ =>
    simp only [Fragment.children, mem_cons, not_mem_nil, or_false] at hx
    simp only [ofFragment, andor, andV, orI, wrapC, Bool.and_eq_true] at h
    grind

end Mal

/-- Whether there is a way to satisfy and a way to dissatisfy, with every key, preimage and lock at
hand. -/
structure Paths where
  sat : Bool
  dsat : Bool
  deriving DecidableEq, Repr

def choose : Nat → List Paths → Bool
  | 0, xs => xs.all Paths.dsat
  | _ + 1, [] => false
  | k + 1, x :: xs => (x.sat && choose k xs) || (x.dsat && choose (k + 1) xs)

theorem choose_append_of_dsat {k : Nat} {xs : List Paths} {x : Paths} (h : choose k xs)
    (hx : x.dsat) : choose k (xs ++ [x]) := by
  induction xs generalizing k with
  | nil =>
    cases k with
    | zero => simp [choose, hx]
    | succ k => simp [choose] at h
  | cons y ys ih =>
    cases k with
    | zero =>
      simp only [choose, all_eq_true] at h ih ⊢
      intro p hp
      rcases mem_append.mp hp with hp | hp
      · exact h p hp
      · exact mem_singleton.mp hp ▸ hx
    | succ k =>
      simp only [cons_append, choose, Bool.or_eq_true, Bool.and_eq_true] at h ⊢
      exact h.imp (And.imp_right ih) (And.imp_right ih)

theorem choose_append_of_sat {k : Nat} {xs : List Paths} {x : Paths} (h : choose k xs)
    (hx : x.sat) : choose (k + 1) (xs ++ [x]) := by
  induction xs generalizing k with
  | nil =>
    cases k with
    | zero => simp [choose, hx]
    | succ k => simp [choose] at h
  | cons y ys ih =>
    simp only [cons_append, choose, Bool.or_eq_true, Bool.and_eq_true]
    cases k with
    | zero =>
      simp only [choose, all_cons, Bool.and_eq_true] at h
      exact .inr ⟨h.1, ih (k := 0) (by rw [choose, h.2])⟩
    | succ k =>
      simp only [choose, Bool.or_eq_true, Bool.and_eq_true] at h
      exact h.imp (And.imp_right ih) (And.imp_right ih)

namespace Paths

def zero : Paths := ⟨false, true⟩

def one : Paths := ⟨true, false⟩

def andor (x y z : Paths) : Paths := ⟨(x.sat && y.sat) || (x.dsat && z.sat), x.dsat && z.dsat⟩

def andV (x y : Paths) : Paths := ⟨x.sat && y.sat, false⟩

def orI (x z : Paths) : Paths := ⟨x.sat || z.sat, x.dsat || z.dsat⟩

def ofFragment : Fragment Paths → Paths
  | .zero => zero
  | .one => one
  | .pkK | .pkH | .pk | .pkh | .hash => ⟨true, true⟩
  | .older _ | .after _ => ⟨true, false⟩
  | .multi k n | .multiA k n => ⟨1 ≤ k ∧ k ≤ n, true⟩
  | .andor x y z => andor x y z
  | .andV x y => andV x y
  | .andB x y => ⟨x.sat && y.sat, x.dsat && y.dsat⟩
  | .orB x z => ⟨(x.sat && z.dsat) || (x.dsat && z.sat), x.dsat && z.dsat⟩
  | .orC x z => ⟨x.sat || (x.dsat && z.sat), false⟩
  | .orD x z => ⟨x.sat || (x.dsat && z.sat), x.dsat && z.dsat⟩
  | .orI x z => orI x z
  | .thresh k xs => ⟨choose k xs, xs.all dsat⟩
  | .wrapA x | .wrapS x | .wrapC x | .wrapN x => x
  | .wrapD x | .wrapJ x => ⟨x.sat, true⟩
  | .wrapV x => ⟨x.sat, false⟩
  | .andN x y => andor x y zero
  | .wrapT x => andV x one
  | .wrapL x => orI zero x
  | .wrapU x => orI x zero

end Paths

end Miniscript
