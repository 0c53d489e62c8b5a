import LedgerBabylon.Lib.Endian
import LedgerBabylon.Lib.Miniscript

/-!
# Wallet policies

The abstract syntax tree of a descriptor template. Every node has flags: none if it is not
miniscript, or else its miniscript type. The children of a `thresh` are the list that the source
links through `next`.
-/

namespace LedgerBabylon

open Miniscript List

variable {isTaproot : Bool}

def text (s : String) : Bytes := s.toList.map fun c => UInt8.ofNat c.toNat

/-- The keys of a key expression. The parser gives the first two; the third is a record that is not read
where it was written. -/
inductive KeyExpressionType where
  | normal (keyIndex : Nat)
  | musig (keyIndexes : List Nat)
  | unreadable
  deriving DecidableEq, Repr

structure KeyExpr where
  numFirst : UInt32
  numSecond : UInt32
  type : KeyExpressionType
  keyexprIndex : UInt16
  deriving DecidableEq, Repr

inductive ConstantToken where
  | zero
  | one
  deriving DecidableEq, Repr

inductive HashToken where
  | sha256
  | hash256
  | ripemd160
  | hash160
  deriving DecidableEq, Repr

inductive KeyToken where
  | pk
  | pkh
  | pkK
  | pkH
  | wpkh
  deriving DecidableEq, Repr

inductive Uint32Token where
  | older
  | after
  deriving DecidableEq, Repr

inductive MultisigToken where
  | multi
  | multiA
  | sortedmulti
  | sortedmultiA
  deriving DecidableEq, Repr

inductive Script2Token where
  | andV
  | andB
  | andN
  | orB
  | orC
  | orD
  | orI
  deriving DecidableEq, Repr

inductive WrapperToken where
  | a
  | s
  | c
  | t
  | d
  | v
  | j
  | n
  | l
  | u
  deriving DecidableEq, Repr

/-- The tokens that can stand before an opening parenthesis, and the two constants. -/
inductive Token where
  | sh
  | wsh
  | tr
  | andor
  | thresh
  | constant (token : ConstantToken)
  | hash (token : HashToken)
  | key (token : KeyToken)
  | uint32 (token : Uint32Token)
  | multisig (token : MultisigToken)
  | script2 (token : Script2Token)
  deriving DecidableEq, Repr

inductive PolicyTree (α : Type) where
  | leaf (script : α)
  | branch (leftTree rightTree : PolicyTree α)

def PolicyTree.leaves {α : Type} : PolicyTree α → List α
  | .leaf script => [script]
  | .branch l r => l.leaves ++ r.leaves

inductive PolicyNode where
  | sh (script : PolicyNode)
  | wsh (script : PolicyNode)
  | tr (key : KeyExpr) (tree : Option (PolicyTree PolicyNode))
  | constant (flags : Option Typ) (token : ConstantToken)
  | withHash (flags : Option Typ) (token : HashToken) (h : Bytes)
  | withKey (flags : Option Typ) (token : KeyToken) (key : KeyExpr)
  | withUint32 (flags : Option Typ) (token : Uint32Token) (n : UInt32)
  | multisig (flags : Option Typ) (token : MultisigToken) (k : Nat) (keys : List KeyExpr)
  | andor (flags : Option Typ) (x y z : PolicyNode)
  | withScript2 (flags : Option Typ) (token : Script2Token) (x y : PolicyNode)
  | thresh (flags : Option Typ) (k : Nat) (scripts : List PolicyNode)
  | wrapper (flags : Option Typ) (token : WrapperToken) (script : PolicyNode)

variable {c : Bool × PolicyNode}

namespace PolicyNode

def flags : PolicyNode → Option Typ
  | .sh _ | .wsh _ | .tr _ _ => none
  | .constant flags _ | .withHash flags _ _ | .withKey flags _ _ | .withUint32 flags _ _
  | .multisig flags _ _ _ | .andor flags _ _ _ | .withScript2 flags _ _ _ | .thresh flags _ _
  | .wrapper flags _ _ => flags

def isMiniscript (node : PolicyNode) : Bool := node.flags.isSome

def children : PolicyNode → List PolicyNode
  | .sh _ | .wsh _ | .tr _ _ | .constant _ _ | .withHash _ _ _ | .withKey _ _ _ | .withUint32 _ _ _
  | .multisig _ _ _ _ => []
  | .wrapper _ _ x => [x]
  | .andor _ x y z => [x, y, z]
  | .withScript2 _ _ x y => [x, y]
  | .thresh _ _ scripts => scripts

/-- The key expressions of a node itself, without those of its scripts. -/
def ownKeys : PolicyNode → List KeyExpr
  | .withKey _ _ key | .tr key _ => [key]
  | .multisig _ _ _ keys => keys
  | _ => []

@[elab_as_elim]
theorem induction {motive : PolicyNode → Prop} (sh : ∀ x, motive x → motive (.sh x))
    (wsh : ∀ x, motive x → motive (.wsh x))
    (tr : ∀ key tree, (∀ t ∈ tree, ∀ x ∈ t.leaves, motive x) → motive (.tr key tree))
    (constant : ∀ flags token, motive (.constant flags token))
    (withHash : ∀ flags token h, motive (.withHash flags token h))
    (withKey : ∀ flags token key, motive (.withKey flags token key))
    (withUint32 : ∀ flags token n, motive (.withUint32 flags token n))
    (multisig : ∀ flags token k keys, motive (.multisig flags token k keys))
    (andor : ∀ flags x y z, motive x → motive y → motive z → motive (.andor flags x y z))
    (withScript2 : ∀ flags token x y, motive x → motive y → motive (.withScript2 flags token x y))
    (thresh : ∀ flags k xs, (∀ x ∈ xs, motive x) → motive (.thresh flags k xs))
    (wrapper : ∀ flags token x, motive x → motive (.wrapper flags token x)) (x : PolicyNode) :
    motive x :=
  @PolicyNode.rec motive (fun tree => ∀ t ∈ tree, ∀ x ∈ t.leaves, motive x)
    (fun xs => ∀ x ∈ xs, motive x) (fun t => ∀ x ∈ t.leaves, motive x) sh wsh tr constant withHash
    withKey withUint32 multisig andor withScript2 thresh wrapper
    (by simp) (by simp) (by simp)
    (fun _ _ hx hxs => forall_mem_cons.mpr ⟨hx, hxs⟩)
    (fun _ hx => forall_mem_singleton.mpr hx)
    (fun _ _ hl hr => forall_mem_append.mpr ⟨hl, hr⟩) x

theorem induction_children {motive : PolicyNode → Prop}
    (step : ∀ x, (∀ c ∈ x.children, motive c) → motive x) (x : PolicyNode) : motive x := by
  induction x using induction with
  | andor flags x y z hx hy hz => exact step _ (by simp [children, hx, hy, hz])
  | withScript2 flags token x y hx hy => exact step _ (by simp [children, hx, hy])
  | thresh flags k xs hxs => exact step _ hxs
  | wrapper flags token x hx => exact step _ (by simp [children, hx])
  | _ => exact step _ (by simp [children])

mutual

def subnodes (isTaproot : Bool) : PolicyNode → List (Bool × PolicyNode)
  | .sh script => (isTaproot, .sh script) :: script.subnodes isTaproot
  | .wsh script => (isTaproot, .wsh script) :: script.subnodes isTaproot
  | .tr key tree => (isTaproot, .tr key tree) :: subnodesOption tree
  | .constant flags token => [(isTaproot, .constant flags token)]
  | .withHash flags token h => [(isTaproot, .withHash flags token h)]
  | .withKey flags token key => [(isTaproot, .withKey flags token key)]
  | .withUint32 flags token n => [(isTaproot, .withUint32 flags token n)]
  | .multisig flags token k keys => [(isTaproot, .multisig flags token k keys)]
  | .andor flags x y z =>
    (isTaproot, .andor flags x y z) :: (x.subnodes isTaproot ++ y.subnodes isTaproot ++ z.subnodes isTaproot)
  | .withScript2 flags token x y =>
    (isTaproot, .withScript2 flags token x y) :: (x.subnodes isTaproot ++ y.subnodes isTaproot)
  | .thresh flags k scripts =>
    (isTaproot, .thresh flags k scripts) :: subnodesList isTaproot scripts
  | .wrapper flags token x => (isTaproot, .wrapper flags token x) :: x.subnodes isTaproot

def subnodesList (isTaproot : Bool) : List PolicyNode → List (Bool × PolicyNode)
  | [] => []
  | x :: xs => x.subnodes isTaproot ++ subnodesList isTaproot xs

def subnodesTree : PolicyTree PolicyNode → List (Bool × PolicyNode)
  | .leaf script => script.subnodes true
  | .branch l r => subnodesTree l ++ subnodesTree r

def subnodesOption : Option (PolicyTree PolicyNode) → List (Bool × PolicyNode)
  | none => []
  | some tree => subnodesTree tree

end

theorem mem_subnodesList {xs : List PolicyNode} :
    c ∈ subnodesList isTaproot xs ↔ ∃ x ∈ xs, c ∈ x.subnodes isTaproot := by
  induction xs with
  | nil => simp [subnodesList]
  | cons x xs ih => simp [subnodesList, ih]

theorem mem_subnodesTree {tree : PolicyTree PolicyNode} :
    c ∈ subnodesTree tree ↔ ∃ x ∈ tree.leaves, c ∈ x.subnodes true := by
  induction tree with
  | leaf x => simp [subnodesTree, PolicyTree.leaves]
  | branch l r ihl ihr =>
    rw [subnodesTree, mem_append, ihl, ihr, PolicyTree.leaves]
    simp only [mem_append, or_and_right, exists_or]

theorem mem_subnodes_self (isTaproot : Bool) (node : PolicyNode) :
    (isTaproot, node) ∈ node.subnodes isTaproot := by
  cases node <;> simp [subnodes]

theorem mem_subnodes_of_mem_children {node x : PolicyNode} (hx : x ∈ node.children) (hc : c ∈ x.subnodes isTaproot) : c ∈ node.subnodes isTaproot := by
  cases node with
  | thresh => exact mem_cons_of_mem _ (mem_subnodesList.mpr ⟨x, hx, hc⟩)
  | andor | withScript2 | wrapper =>
    simp only [children, mem_cons, not_mem_nil, or_false] at hx
    simp only [subnodes, mem_cons, mem_append]
    grind
  | _ => simp [children] at hx

theorem map_snd_subnodes (isTaproot isTaproot' : Bool) (node : PolicyNode) :
    (node.subnodes isTaproot).map Prod.snd = (node.subnodes isTaproot').map Prod.snd := by
  have hlist {xs : List PolicyNode}
      (h : ∀ x ∈ xs, (x.subnodes isTaproot).map Prod.snd = (x.subnodes isTaproot').map Prod.snd) :
      (subnodesList isTaproot xs).map Prod.snd = (subnodesList isTaproot' xs).map Prod.snd := by
    induction xs with
    | nil => rfl
    | cons x xs ih =>
      rw [forall_mem_cons] at h
      rw [subnodesList, subnodesList, map_append, map_append, h.1, ih h.2]
  induction node using PolicyNode.induction with
  | thresh flags k xs ih => rw [subnodes, subnodes, map_cons, map_cons, hlist ih]
  | _ => simp_all [subnodes]

def AllNodes (P : PolicyNode → Prop) (node : PolicyNode) : Prop := ∀ c ∈ node.subnodes false, P c.2

instance (P : PolicyNode → Prop) [DecidablePred P] (node : PolicyNode) : Decidable (node.AllNodes P) :=
  inferInstanceAs (Decidable (∀ c ∈ node.subnodes false, P c.2))

namespace AllNodes

variable {P : PolicyNode → Prop} {node : PolicyNode}

theorem self (h : node.AllNodes P) : P node := h _ (mem_subnodes_self false node)

theorem child (h : node.AllNodes P) {x : PolicyNode} (hx : x ∈ node.children) : x.AllNodes P :=
  fun c hc => h c (mem_subnodes_of_mem_children hx hc)

theorem wrapper {flags token x} (h : (PolicyNode.wrapper flags token x).AllNodes P) : x.AllNodes P :=
  h.child (by simp [children])

theorem withScript2 {flags token x y} (h : (PolicyNode.withScript2 flags token x y).AllNodes P) :
    x.AllNodes P ∧ y.AllNodes P :=
  ⟨h.child (by simp [children]), h.child (by simp [children])⟩

theorem andor {flags x y z} (h : (PolicyNode.andor flags x y z).AllNodes P) :
    x.AllNodes P ∧ y.AllNodes P ∧ z.AllNodes P :=
  ⟨h.child (by simp [children]), h.child (by simp [children]), h.child (by simp [children])⟩

theorem of_subnodes (h : ∀ c ∈ node.subnodes isTaproot, P c.2) : node.AllNodes P := by
  intro c hc
  have hmem := mem_map_of_mem (f := Prod.snd) hc
  rw [map_snd_subnodes false isTaproot] at hmem
  obtain ⟨c', hc', heq⟩ := mem_map.mp hmem
  exact heq ▸ h c' hc'

end AllNodes

end PolicyNode

variable {β : Type}

def ConstantToken.fragment : ConstantToken → Fragment β
  | .zero => .zero
  | .one => .one

def KeyToken.fragment : KeyToken → Option (Fragment β)
  | .pk => some .pk
  | .pkh => some .pkh
  | .pkK => some .pkK
  | .pkH => some .pkH
  | .wpkh => none

def Uint32Token.fragment (n : Nat) : Uint32Token → Fragment β
  | .older => .older n
  | .after => .after n

def MultisigToken.fragment (k n : Nat) : MultisigToken → Option (Fragment β)
  | .multi => some (.multi k n)
  | .multiA => some (.multiA k n)
  | .sortedmulti | .sortedmultiA => none

def Script2Token.fragment (x y : β) : Script2Token → Fragment β
  | .andV => .andV x y
  | .andB => .andB x y
  | .andN => .andN x y
  | .orB => .orB x y
  | .orC => .orC x y
  | .orD => .orD x y
  | .orI => .orI x y

def WrapperToken.fragment (x : β) : WrapperToken → Fragment β
  | .a => .wrapA x
  | .s => .wrapS x
  | .c => .wrapC x
  | .t => .wrapT x
  | .d => .wrapD x
  | .v => .wrapV x
  | .j => .wrapJ x
  | .n => .wrapN x
  | .l => .wrapL x
  | .u => .wrapU x

namespace PolicyNode

def fragment (f : PolicyNode → β) : PolicyNode → Option (Fragment β)
  | .sh _ | .wsh _ | .tr _ _ => none
  | .constant _ token => some token.fragment
  | .withHash _ _ _ => some .hash
  | .withKey _ token _ => token.fragment
  | .withUint32 _ token n => some (token.fragment n.toNat)
  | .multisig _ token k keys => token.fragment k keys.length
  | .andor _ x y z => some (.andor (f x) (f y) (f z))
  | .withScript2 _ token x y => some (token.fragment (f x) (f y))
  | .thresh _ k scripts => some (.thresh k (scripts.map f))
  | .wrapper _ token x => some (token.fragment (f x))

mutual

def fold (none : β) (table : Fragment β → β) : PolicyNode → β
  | .sh _ | .wsh _ | .tr _ _ => none
  | .constant _ token => table token.fragment
  | .withHash _ _ _ => table .hash
  | .withKey _ token _ => token.fragment.elim none table
  | .withUint32 _ token n => table (token.fragment n.toNat)
  | .multisig _ token k keys => (token.fragment k keys.length).elim none table
  | .andor _ x y z => table (.andor (x.fold none table) (y.fold none table) (z.fold none table))
  | .withScript2 _ token x y => table (token.fragment (x.fold none table) (y.fold none table))
  | .thresh _ k scripts => table (.thresh k (foldList none table scripts))
  | .wrapper _ token x => table (token.fragment (x.fold none table))

def foldList (none : β) (table : Fragment β → β) : List PolicyNode → List β
  | [] => []
  | x :: xs => x.fold none table :: foldList none table xs

end

theorem foldList_eq_map (none : β) (table : Fragment β → β) (xs : List PolicyNode) :
    foldList none table xs = xs.map (fold none table) := by
  induction xs with
  | nil => rfl
  | cons x xs ih => rw [foldList, ih, map_cons]

theorem children_of_fragment {f : PolicyNode → β} {node : PolicyNode} {fr : Fragment β}
    (h : node.fragment f = some fr) : fr.children = node.children.map f := by
  cases node with
  | sh | wsh | tr => simp [fragment] at h
  | constant flags token | withUint32 flags token n | withScript2 flags token x y
  | wrapper flags token x =>
    cases h
    cases token <;> rfl
  | withHash | andor | thresh =>
    cases h
    rfl
  | withKey flags token key | multisig flags token k keys =>
    cases token <;> simp only [fragment, KeyToken.fragment, MultisigToken.fragment,
      reduceCtorEq, Option.some.injEq] at h <;> subst h <;> rfl

theorem eq_or_mem_of_mem_subnodes {f : PolicyNode → β} {node : PolicyNode} {fr : Fragment β}
    (h : node.fragment f = some fr) (hc : c ∈ node.subnodes isTaproot) :
    c = (isTaproot, node) ∨ ∃ x ∈ node.children, c ∈ x.subnodes isTaproot := by
  cases node with
  | sh | wsh | tr => simp [fragment] at h
  | thresh => simpa [subnodes, mem_subnodesList, children] using hc
  | _ => simpa [subnodes, children] using hc

theorem fold_eq (none : β) (table : Fragment β → β) (node : PolicyNode) :
    node.fold none table = (node.fragment (fold none table)).elim none table := by
  cases node with
  | thresh flags k xs => rw [fold, foldList_eq_map, fragment, Option.elim_some]
  | _ => rfl

end PolicyNode

end LedgerBabylon
