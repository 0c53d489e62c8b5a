import LedgerBabylon.Lib.LinkedTree
import LedgerBabylon.Common.Merkle

/-!
# Merkle trees of the clients

The Python and the JavaScript client link their nodes to the parents and find a proof by following them
upwards. The Rust client finds it from the root down, by the heights of its nodes. All three split a tree
at the largest power of two below its size, so they have the same root and the same proofs.

References are positions in a heap of nodes. A client that throws or panics gives no result.
-/

namespace LedgerBabylon

open List

variable {n : Nat} {t : HashTree Digest}

def floorLgLoop (n : Nat) : Nat → Nat → Nat → Option Nat
  | 0, _, _ => none
  | fuel + 1, t, r => if 2 * t ≤ n then floorLgLoop n fuel (2 * t) (r + 1) else some r

def floorLg (n : Nat) : Option Nat := if n = 0 then none else floorLgLoop n n 1 0

def isPowerOf2 (n : Nat) : Bool := n &&& (n - 1) = 0

theorem floorLgLoop_eq {fuel r : Nat} (hle : 2 ^ r ≤ n) (hfuel : Nat.log 2 n < fuel + r) :
    floorLgLoop n fuel (2 ^ r) r = some (Nat.log 2 n) := by
  induction fuel generalizing r with
  | zero =>
    have : r ≤ Nat.log 2 n := Nat.le_log_of_pow_le (by omega) hle
    omega
  | succ fuel ih =>
    rw [floorLgLoop, Nat.mul_comm 2, ← Nat.pow_succ]
    split_ifs with hmore
    · exact ih hmore (by omega)
    · rw [Nat.log_eq_of_pow_le_of_lt_pow hle (not_le.mp hmore)]

theorem floorLg_eq (h : 0 < n) : floorLg n = some (Nat.log 2 n) := by
  rw [floorLg, if_neg (by omega)]
  exact floorLgLoop_eq (r := 0) h (Nat.log_lt_self 2 (by omega))

theorem isPowerOf2_iff (h : 0 < n) : isPowerOf2 n ↔ ∃ k, n = 2 ^ k := by
  rw [isPowerOf2, decide_eq_true_eq, Nat.and_sub_one_eq_zero_iff_isPowerOfTwo (by omega)]
  rfl

theorem splitSize_of_isPowerOf2 (h : 2 ≤ n) (hpow : isPowerOf2 n) : splitSize n = n / 2 := by
  obtain ⟨k, rfl⟩ := (isPowerOf2_iff (by omega)).mp hpow
  cases k with
  | zero => omega
  | succ k =>
    have hhalf : 2 ^ (k + 1) / 2 = 2 ^ k := by
      rw [Nat.pow_succ, Nat.mul_div_cancel _ (by omega)]
    have hpos := Nat.two_pow_pos k
    rw [hhalf, splitSize_eq _ (Nat.le_refl _)]
    rw [Nat.pow_succ]
    omega

theorem splitSize_of_not_isPowerOf2 (h : 2 ≤ n) (hpow : ¬isPowerOf2 n) :
    splitSize n = 2 ^ Nat.log 2 n := by
  apply splitSize_eq
  · apply lt_of_le_of_ne (Nat.pow_log_le_self 2 (by omega))
    intro heq
    exact hpow ((isPowerOf2_iff (by omega)).mpr ⟨_, heq.symm⟩)
  · exact (Nat.lt_pow_succ_log_self (by omega) n).le

variable (sha256 : Bytes → Digest)

structure TreeView where
  size : Nat
  get : Nat → Option Digest
  prove : Nat → Option (List Digest)

def TreeView.of (t : HashTree Digest) : TreeView where
  size := t.size
  get i := t.leaves[i]?
  prove i := if i < t.size then some ((t.path sha256 nodeMessage i).map Prod.snd) else none

namespace Python

def largestPowerOf2LessThan (n : Nat) : Option Nat :=
  if n ≤ 1 then none
  else if isPowerOf2 n then some (n / 2)
  else (floorLg n).map (1 <<< ·)

theorem largestPowerOf2LessThan_eq (h : 2 ≤ n) : largestPowerOf2LessThan n = some (splitSize n) := by
  rw [largestPowerOf2LessThan, if_neg (by omega)]
  split_ifs with hpow
  · rw [splitSize_of_isPowerOf2 h hpow]
  · rw [floorLg_eq (by omega), splitSize_of_not_isPowerOf2 h hpow, Option.map_some, Nat.one_shiftLeft]

def makeTree (leaves : List Nat) :
    Nat → Nat → Nat → List (LinkedNode Digest) → Option (Nat × List (LinkedNode Digest))
  | 0, _, _, _ => none
  | fuel + 1, start, size, heap =>
    if size = 0 then none -- the source returns a list in place of a node
    else if size = 1 then leaves[start]?.map (·, heap)
    else do
      let lchildSize ← largestPowerOf2LessThan size
      let (lchild, heap) ← makeTree leaves fuel start lchildSize heap
      let (rchild, heap) ← makeTree leaves fuel (start + lchildSize) (size - lchildSize) heap
      LinkedTree.link sha256 nodeMessage heap lchild rchild

structure MerkleTree where
  heap : List (LinkedNode Digest)
  leaves : List Nat
  rootNode : Option Nat

def MerkleTree.init (elements : List Digest) : Option MerkleTree :=
  let heap := elements.map (⟨none, none, none, ·⟩)
  let leaves := range elements.length
  if 0 < elements.length then do
    let (root, heap) ← makeTree sha256 leaves elements.length 0 elements.length heap
    return ⟨heap, leaves, some root⟩
  else return ⟨heap, leaves, none⟩

def MerkleTree.root (tree : MerkleTree) : Option Digest :=
  match tree.rootNode with
  | none => some (Digest.ofNat 0) -- NIL
  | some id => tree.heap[id]?.map (·.value)

def sibling (self : Nat) (parent : LinkedNode Digest) : Option Nat :=
  if parent.left = some self then parent.right
  else if parent.right = some self then parent.left
  else none

def MerkleTree.proveLeaf (tree : MerkleTree) (index : Nat) : Option (List Digest) := do
  let node ← tree.leaves[index]?
  LinkedTree.siblings sibling tree.heap tree.heap.length node

def MerkleTree.get (tree : MerkleTree) (i : Nat) : Option Digest :=
  (tree.leaves[i]?.bind (tree.heap[·]?)).map (·.value)

def MerkleTree.view (tree : MerkleTree) : TreeView := ⟨tree.leaves.length, tree.get, tree.proveLeaf⟩

theorem findsSibling : LinkedTree.FindsSibling sibling := by
  intro l r parent hne hl hr
  have hne' : ¬some l = some r := fun h => hne (Option.some.inj h)
  rw [sibling, sibling, hl, hr]
  simp [hne']

variable {sha256}

def AreLeaves (heap : List (LinkedNode Digest)) (ids : List Nat) (values : List Digest) : Prop :=
  List.Forall₂ (fun id value => heap[id]? = some ⟨none, none, none, value⟩) ids values

theorem makeTree_eq {leaves : List Nat} {fuel start size : Nat} {heap : List (LinkedNode Digest)}
    {ids : List Nat} {values : List Digest} (hsize : 0 < size) (hfuel : size ≤ fuel)
    (hids : (leaves.drop start).take size = ids) (hlen : ids.length = size) (hnodup : ids.Nodup)
    (hleaves : AreLeaves heap ids values) :
    ∃ t heap', makeTree sha256 leaves fuel start size heap = some (t.id, heap') ∧
      LinkedTree.Built sha256 nodeMessage heap heap' t ∧ t.leafIds = ids ∧ t.erase.leaves = values ∧
      t.erase.IsSplit := by
  induction fuel generalizing start size heap ids values with
  | zero => omega
  | succ fuel ih =>
    rw [makeTree, if_neg (by omega)]
    by_cases hone : size = 1
    · subst hone
      obtain ⟨id, rfl⟩ := length_eq_one_iff.mp hlen
      obtain ⟨value, _, hid, hnil, rfl⟩ := forall₂_cons_left_iff.mp hleaves
      obtain rfl := forall₂_nil_left_iff.mp hnil
      have hstart : leaves[start]? = some id := by
        have := congrArg (·[0]?) hids
        simpa using this
      rw [if_pos rfl, hstart]
      exact ⟨.leaf id value, heap, rfl, .leaf hid, rfl, rfl, trivial⟩
    · have htwo : 2 ≤ size := by omega
      have hlt := splitSize_lt htwo
      have hpos := splitSize_pos size
      rw [if_neg hone, largestPowerOf2LessThan_eq htwo]
      simp only [Option.bind_eq_bind, Option.bind_some]
      have hvalues : values.length = size := by rw [← hleaves.length_eq, hlen]
      obtain ⟨l, heap1, hl, hlbuilt, hlids, hlvalues, hlsplit⟩ :=
        @ih start (splitSize size) heap (ids.take (splitSize size)) (values.take (splitSize size)) hpos
          (by omega)
          (by rw [← hids, take_take, Nat.min_eq_left hlt.le])
          (by rw [length_take]; omega) (hnodup.take) (forall₂_take _ hleaves)
      have hdisjoint : ∀ j ∈ ids.drop (splitSize size), j ∉ l.leafIds := by
        intro j hj hj'
        rw [hlids] at hj'
        exact disjoint_take_drop hnodup (Nat.le_refl _) hj' hj
      have hold : ∀ j ∈ ids, j < heap.length := by
        intro j hj
        obtain ⟨k, hk, rfl⟩ := getElem_of_mem hj
        exact (List.getElem?_eq_some_iff.mp (hleaves.get hk (by omega))).1
      -- the left part did not touch the leaves of the right part
      have hright : AreLeaves heap1 (ids.drop (splitSize size)) (values.drop (splitSize size)) := by
        have hdrop : AreLeaves heap (ids.drop (splitSize size)) (values.drop (splitSize size)) :=
          forall₂_drop _ hleaves
        rw [AreLeaves, forall₂_iff_get] at hdrop ⊢
        refine ⟨hdrop.1, fun k hk hk' => ?_⟩
        have hmem := get_mem (ids.drop (splitSize size)) ⟨k, hk⟩
        rw [hlbuilt.others _ (hold _ (mem_of_mem_drop hmem)) (hdisjoint _ hmem)]
        exact hdrop.2 k hk hk'
      obtain ⟨r, heap2, hr, hrbuilt, hrids, hrvalues, hrsplit⟩ :=
        @ih (start + splitSize size) (size - splitSize size) heap1 (ids.drop (splitSize size))
          (values.drop (splitSize size)) (by omega) (by omega)
          (by rw [← hids, drop_take, drop_drop])
          (by rw [length_drop]; omega) (hnodup.drop) hright
      have hfresh : ∀ j ∈ r.leafIds, j ∉ l.ids := by
        intro j hj hj'
        rw [hrids] at hj
        rcases hlbuilt.ids j hj' with h | h
        · exact hdisjoint j hj h
        · exact absurd (hold j (mem_of_mem_drop hj)) (not_lt.mpr h)
      obtain ⟨heap3, hlink, hbuilt⟩ := hlbuilt.link hrbuilt hfresh
      refine ⟨_, heap3, ?_, hbuilt, ?_, ?_, ?_, hlsplit, hrsplit⟩
      · rw [hl, Option.bind_some, hr, Option.bind_some, hlink]
        rfl
      · rw [LinkedTree.leafIds, hlids, hrids, take_append_drop]
      · rw [LinkedTree.erase, HashTree.leaves, hlvalues, hrvalues, take_append_drop]
      · rw [← LinkedTree.length_leafIds, ← LinkedTree.length_leafIds, hlids, hrids, length_take,
          length_drop, hlen, Nat.min_eq_left hlt.le, Nat.add_sub_cancel' hlt.le]

theorem init_built {elements : List Digest} (h : elements ≠ []) :
    ∃ t heap, MerkleTree.init sha256 elements = some ⟨heap, t.leafIds, some t.id⟩ ∧
      LinkedTree.InHeap sha256 nodeMessage heap none t ∧ t.ids.Nodup ∧ t.erase.leaves = elements ∧
      t.erase.IsSplit := by
  have hpos : 0 < elements.length := length_pos_iff.mpr h
  have hleaves : AreLeaves (elements.map (⟨none, none, none, ·⟩)) (range elements.length) elements := by
    rw [AreLeaves, forall₂_iff_get]
    refine ⟨length_range, fun k hk hk' => ?_⟩
    simp [getElem?_eq_getElem hk']
  obtain ⟨t, heap, hmake, hbuilt, hids, hvalues, hsplit⟩ :=
    @makeTree_eq sha256 (range elements.length) elements.length 0 _ _ _ _ hpos (Nat.le_refl _)
      (by simp) length_range nodup_range hleaves
  refine ⟨t, heap, ?_, hbuilt.inHeap, hbuilt.nodup, hvalues, hsplit⟩
  rw [MerkleTree.init, if_pos hpos, hmake, hids]
  rfl

theorem root_eq {heap : List (LinkedNode Digest)} {t : LinkedTree Digest}
    (h : LinkedTree.InHeap sha256 nodeMessage heap none t) (leaves : List Nat) :
    MerkleTree.root ⟨heap, leaves, some t.id⟩ = some (t.erase.value sha256 nodeMessage) := by
  obtain ⟨root, hroot, -, hvalue⟩ := h.getElem?_id
  simp only [MerkleTree.root, hroot, Option.map_some, hvalue]

theorem view_eq {heap : List (LinkedNode Digest)} {t : LinkedTree Digest}
    (h : LinkedTree.InHeap sha256 nodeMessage heap none t) (hnodup : t.ids.Nodup) (root : Option Nat) :
    MerkleTree.view ⟨heap, t.leafIds, root⟩ = .of sha256 t.erase := by
  rw [MerkleTree.view, TreeView.of, TreeView.mk.injEq]
  refine ⟨LinkedTree.length_leafIds t, funext h.leaf_value, funext fun i => ?_⟩
  rw [MerkleTree.proveLeaf, ← LinkedTree.length_leafIds]
  split_ifs with hi
  · have hnode := getElem?_eq_getElem hi
    rw [hnode]
    exact LinkedTree.siblings_eq_path findsSibling h hnodup hnode
  · rw [getElem?_eq_none (not_lt.mp hi)]
    rfl

theorem init_eq {elements : List Digest} (h : elements ≠ []) :
    ∃ tree t, MerkleTree.init sha256 elements = some tree ∧ t.leaves = elements ∧ t.IsSplit ∧
      tree.root = some (t.value sha256 nodeMessage) ∧ tree.view = .of sha256 t := by
  obtain ⟨t, heap, hinit, hinHeap, hnodup, hleaves, hsplit⟩ := init_built h
  exact ⟨_, t.erase, hinit, hleaves, hsplit, root_eq hinHeap _, view_eq hinHeap hnodup _⟩

end Python

namespace Rust

def largestPowerOf2LessThan (n : Nat) : Option Nat :=
  if n = 2 then some 1
  else if n ≤ 1 then none
  else if isPowerOf2 n then some (n / 2)
  else (floorLg n).map (1 <<< ·)

theorem largestPowerOf2LessThan_eq (h : 2 ≤ n) : largestPowerOf2LessThan n = some (splitSize n) := by
  rw [← Python.largestPowerOf2LessThan_eq h]
  by_cases htwo : n = 2
  · subst htwo
    rfl
  · exact if_neg htwo

inductive Tree where
  | node (value : Digest) (left right : Tree) (height : Nat)
  | leaf (idx : Nat)

variable {tree : Tree}

def Tree.value (leaves : List Digest) : Tree → Option Digest
  | .node value _ _ _ => some value
  | .leaf idx => leaves[idx]?

def Tree.height : Tree → Nat
  | .node _ _ _ height => height
  | .leaf _ => 0

def Tree.new (leaves : List Digest) : Nat → Nat → Nat → Option Tree
  | 0, _, _ => none
  | fuel + 1, start, size =>
    if size = 1 then some (.leaf start)
    else do
      let lchildSize ← largestPowerOf2LessThan size
      let lchild ← new leaves fuel start lchildSize
      let rchild ← new leaves fuel (start + lchildSize) (size - lchildSize)
      let value := sha256 (nodeMessage (← lchild.value leaves) (← rchild.value leaves))
      return .node value lchild rchild (lchild.height + 1)

def pow2 : Nat → Nat
  | 0 => 1
  | n + 1 => pow2 n * 2

def Tree.getProof (leaves : List Digest) : Tree → Nat → Option (List Digest)
  | .leaf _, _ => some []
  | .node _ left right _, index => do
    if index < pow2 left.height then
      return (← left.getProof leaves index) ++ [← right.value leaves]
    else
      return (← right.getProof leaves (index - pow2 left.height)) ++ [← left.value leaves]

structure MerkleTree where
  root : Tree
  leaves : List Digest

def MerkleTree.new (leaves : List Digest) : Option MerkleTree := do
  return ⟨← Tree.new sha256 leaves (leaves.length + 1) 0 leaves.length, leaves⟩

def MerkleTree.rootHash (tree : MerkleTree) : Option Digest := tree.root.value tree.leaves

def MerkleTree.getLeafProof (tree : MerkleTree) (index : Nat) : Option (List Digest) :=
  if tree.leaves.length ≤ index then none else tree.root.getProof tree.leaves index

def MerkleTree.getLeaf (tree : MerkleTree) (i : Nat) : Option Digest := tree.leaves[i]?

def MerkleTree.view (tree : MerkleTree) : TreeView := ⟨tree.leaves.length, tree.getLeaf, tree.getLeafProof⟩

variable {sha256}

theorem pow2_eq (n : Nat) : pow2 n = 2 ^ n := by
  induction n with
  | zero => rfl
  | succ n ih => rw [pow2, ih, Nat.pow_succ]

variable (sha256) in
def Tree.Shows (leaves : List Digest) : Tree → HashTree Digest → Prop
  | .leaf idx, .leaf value => leaves[idx]? = some value
  | .node value left right height, .node l r =>
    value = (HashTree.node l r).value sha256 nodeMessage ∧ height = left.height + 1 ∧
      left.Shows leaves l ∧ right.Shows leaves r
  | _, _ => False

variable {leaves : List Digest}

theorem Tree.Shows.value_eq
    (h : tree.Shows sha256 leaves t) : tree.value leaves = some (t.value sha256 nodeMessage) := by
  cases tree with
  | leaf idx =>
    cases t with
    | leaf value => exact h
    | node l r => exact h.elim
  | node value left right height =>
    cases t with
    | leaf value => exact h.elim
    | node l r =>
      obtain ⟨rfl, -⟩ := h
      rfl

theorem Tree.Shows.height_eq
    (h : tree.Shows sha256 leaves t) (hsplit : t.IsSplit) {k : Nat} (hk : t.size = 2 ^ k) :
    tree.height = k := by
  induction k generalizing tree t with
  | zero =>
    cases t with
    | node l r =>
      have := l.size_pos
      have := r.size_pos
      simp only [HashTree.size] at hk
      omega
    | leaf value =>
      cases tree with
      | leaf idx => rfl
      | node value left right height => exact h.elim
  | succ k ih =>
    have hpos := Nat.two_pow_pos k
    rw [Nat.pow_succ] at hk
    cases t with
    | leaf value =>
      simp only [HashTree.size] at hk
      omega
    | node l r =>
      cases tree with
      | leaf idx => exact h.elim
      | node value left right height =>
        obtain ⟨-, rfl, hleft, -⟩ := h
        have hl : l.size = 2 ^ k := by
          simp only [HashTree.size] at hk
          rw [hsplit.1, hk]
          exact splitSize_eq (by omega) (by rw [Nat.pow_succ])
        rw [Tree.height, ih hleft hsplit.2.1 hl]

theorem Tree.Shows.getProof_eq (h : tree.Shows sha256 leaves t) (hsplit : t.IsSplit) (i : Nat) :
    tree.getProof leaves i = some ((t.path sha256 nodeMessage i).map Prod.snd) := by
  induction tree generalizing t i with
  | leaf idx =>
    cases t with
    | leaf value => rfl
    | node l r => exact h.elim
  | node value left right height ihl ihr =>
    cases t with
    | leaf value => exact h.elim
    | node l r =>
      obtain ⟨-, -, hleft, hright⟩ := h
      obtain ⟨hl, hlsplit, hrsplit⟩ := hsplit
      have hpow : pow2 left.height = l.size := by
        rw [pow2_eq, hleft.height_eq hlsplit hl]
        exact hl.symm
      rw [Tree.getProof, hpow, HashTree.path]
      split_ifs with hi
      · rw [ihl hleft hlsplit, hright.value_eq, map_append]
        rfl
      · rw [ihr hright hrsplit, hleft.value_eq, map_append]
        rfl

theorem Tree.new_eq {fuel start size : Nat} (hsize : 0 < size)
    (hfuel : size ≤ fuel) (hlen : start + size ≤ leaves.length) :
    ∃ tree t, Tree.new sha256 leaves fuel start size = some tree ∧ tree.Shows sha256 leaves t ∧
      t.leaves = (leaves.drop start).take size ∧ t.IsSplit := by
  induction fuel generalizing start size with
  | zero => omega
  | succ fuel ih =>
    rw [Tree.new]
    by_cases hone : size = 1
    · subst hone
      have hleaf := getElem?_eq_getElem (show start < leaves.length by omega)
      rw [if_pos rfl]
      refine ⟨_, .leaf _, rfl, hleaf, ?_, trivial⟩
      rw [drop_eq_getElem_cons (by omega)]
      rfl
    · have htwo : 2 ≤ size := by omega
      have hlt := splitSize_lt htwo
      have hpos := splitSize_pos size
      rw [if_neg hone, largestPowerOf2LessThan_eq htwo]
      obtain ⟨left, l, hleft, hlshows, hlleaves, hlsplit⟩ := @ih start _ hpos (by omega) (by omega)
      obtain ⟨right, r, hright, hrshows, hrleaves, hrsplit⟩ :=
        @ih (start + splitSize size) (size - splitSize size) (by omega) (by omega) (by omega)
      refine ⟨.node _ left right (left.height + 1), .node l r, ?_, ⟨rfl, rfl, hlshows, hrshows⟩, ?_, ?_,
        hlsplit, hrsplit⟩
      · simp only [Option.bind_eq_bind, Option.bind_some, hleft, hright, hlshows.value_eq, hrshows.value_eq]
        rfl
      · rw [HashTree.leaves, hlleaves, hrleaves, ← drop_drop, ← take_add, Nat.add_sub_cancel' hlt.le]
      · rw [← HashTree.length_leaves, ← HashTree.length_leaves, hlleaves, hrleaves, length_take,
          length_take, length_drop, length_drop, Nat.min_eq_left (by omega),
          Nat.min_eq_left (by omega), Nat.add_sub_cancel' hlt.le]

theorem new_eq (h : leaves ≠ []) :
    ∃ tree t, MerkleTree.new sha256 leaves = some tree ∧ t.leaves = leaves ∧ t.IsSplit ∧
      tree.rootHash = some (t.value sha256 nodeMessage) ∧ tree.view = .of sha256 t := by
  obtain ⟨root, t, hnew, hshows, hleaves, hsplit⟩ := @Tree.new_eq sha256 leaves
    (leaves.length + 1) 0 leaves.length (length_pos_iff.mpr h) (Nat.le_succ _) (by omega)
  rw [drop_zero, take_length] at hleaves
  refine ⟨⟨root, leaves⟩, t, ?_, hleaves, hsplit, hshows.value_eq, ?_⟩
  · rw [MerkleTree.new, hnew]
    rfl
  · rw [MerkleTree.view, TreeView.of, ← HashTree.length_leaves, hleaves, TreeView.mk.injEq]
    refine ⟨rfl, rfl, funext fun i => ?_⟩
    simp only [MerkleTree.getLeafProof, hshows.getProof_eq hsplit, ← not_lt, ite_not]

end Rust

namespace JavaScript

def isPowerOf2 (n : Nat) : Bool := BitVec.ofNat 32 n &&& BitVec.ofNat 32 (n - 1) = 0

def highestPowerOf2LessThan (n : Nat) : Option Int :=
  if n < 2 then none
  else if isPowerOf2 n then some (n / 2 : Nat)
  else some ((1 : BitVec 32) <<< (Nat.log2 n % 32)).toInt

/-- Where `slice` cuts a list of `n` elements. Negative positions count from the end. -/
def slicePosition (n : Nat) (position : Int) : Nat :=
  if position < 0 then (n + position).toNat else min position.toNat n

def calculateRoot :
    Nat → List Digest → List (LinkedNode Digest) → Option ((Nat × List Nat) × List (LinkedNode Digest))
  | 0, _, _ => none
  | fuel + 1, leaves, heap =>
    match leaves with
    | [] => some ((heap.length, []), heap ++ [⟨none, none, none, Digest.ofNat 0⟩])
    | [leaf] => some ((heap.length, [heap.length]), heap ++ [⟨none, none, none, leaf⟩])
    | leaves => do
      let leftCount := slicePosition leaves.length (← highestPowerOf2LessThan leaves.length)
      let (leftBranch, heap) ← calculateRoot fuel (leaves.take leftCount) heap
      let (rightBranch, heap) ← calculateRoot fuel (leaves.drop leftCount) heap
      let (node, heap) ← LinkedTree.link sha256 nodeMessage heap leftBranch.1 rightBranch.1
      return ((node, leftBranch.2 ++ rightBranch.2), heap)

structure Merkle where
  leaves : List Digest
  heap : List (LinkedNode Digest)
  rootNode : Nat
  leafNodes : List Nat

def Merkle.new (leaves : List Digest) : Option Merkle := do
  let (nodes, heap) ← calculateRoot sha256 (leaves.length + 1) leaves []
  return ⟨leaves, heap, nodes.1, nodes.2⟩

def Merkle.getRoot (tree : Merkle) : Option Digest := tree.heap[tree.rootNode]?.map (·.value)

def sibling (self : Nat) (parent : LinkedNode Digest) : Option Nat :=
  if parent.left = some self then parent.right else parent.left

def Merkle.getProof (tree : Merkle) (index : Nat) : Option (List Digest) :=
  if tree.leaves.length ≤ index then none
  else do
    let node ← tree.leafNodes[index]?
    LinkedTree.siblings sibling tree.heap tree.heap.length node

def Merkle.getLeafHash (tree : Merkle) (index : Nat) : Option Digest :=
  (tree.leafNodes[index]?.bind (tree.heap[·]?)).map (·.value)

def Merkle.view (tree : Merkle) : TreeView := ⟨tree.leaves.length, tree.getLeafHash, tree.getProof⟩

theorem findsSibling : LinkedTree.FindsSibling sibling := by
  intro l r parent hne hl hr
  have hne' : ¬some l = some r := fun h => hne (Option.some.inj h)
  rw [sibling, sibling, hl, hr]
  simp [hne']

theorem isPowerOf2_eq (h : n < 2 ^ 32) : isPowerOf2 n = LedgerBabylon.isPowerOf2 n := by
  rw [isPowerOf2, LedgerBabylon.isPowerOf2, decide_eq_decide, ← BitVec.toNat_inj, BitVec.toNat_and,
    BitVec.toNat_ofNat, BitVec.toNat_ofNat, Nat.mod_eq_of_lt h, Nat.mod_eq_of_lt (by omega)]
  rfl

theorem slicePosition_highestPowerOf2LessThan (h : 2 ≤ n) (hle : n ≤ 2 ^ 31) :
    (highestPowerOf2LessThan n).map (slicePosition n) = some (splitSize n) := by
  have hlt := splitSize_lt h
  have hposition : slicePosition n (splitSize n : Nat) = splitSize n := by
    rw [slicePosition, if_neg (by omega), Int.toNat_natCast, Nat.min_eq_left hlt.le]
  rw [highestPowerOf2LessThan, if_neg (by omega), isPowerOf2_eq (by omega)]
  split_ifs with hpow
  · rw [← splitSize_of_isPowerOf2 h hpow, Option.map_some, hposition]
  · have hsplit := splitSize_of_not_isPowerOf2 h hpow
    rw [hsplit] at hlt
    have hlog : Nat.log 2 n < 31 := by
      apply (Nat.pow_lt_pow_iff_right (a := 2) (by omega)).mp
      omega
    have hshift : ((1 : BitVec 32) <<< (Nat.log2 n % 32)).toInt = (splitSize n : Nat) := by
      rw [Nat.log2_eq_log_two, Nat.mod_eq_of_lt (by omega), hsplit]
      have hpow31 : 2 ^ Nat.log 2 n ≤ 2 ^ 30 := Nat.pow_le_pow_right (by omega) (by omega)
      have htoNat : ((1 : BitVec 32) <<< Nat.log 2 n).toNat = 2 ^ Nat.log 2 n := by
        rw [BitVec.toNat_shiftLeft]
        show 1 <<< Nat.log 2 n % 2 ^ 32 = _
        rw [Nat.one_shiftLeft, Nat.mod_eq_of_lt (by omega)]
      rw [BitVec.toInt_eq_toNat_of_lt (by omega), htoNat]
    rw [hshift, Option.map_some, hposition]

variable {sha256}

theorem calculateRoot_eq {fuel : Nat} {heap : List (LinkedNode Digest)}
    (hne : leaves ≠ []) (hfuel : leaves.length ≤ fuel) (hle : leaves.length ≤ 2 ^ 31) :
    ∃ t heap', calculateRoot sha256 fuel leaves heap = some ((t.id, t.leafIds), heap') ∧
      LinkedTree.Built sha256 nodeMessage heap heap' t ∧ (∀ j ∈ t.leafIds, heap.length ≤ j) ∧
      t.erase.leaves = leaves ∧ t.erase.IsSplit := by
  induction fuel generalizing leaves heap with
  | zero =>
    have := length_pos_iff.mpr hne
    omega
  | succ fuel ih =>
    match leaves, hne with
    | [leaf], _ =>
      have hleaf : (heap ++ [⟨none, none, none, leaf⟩])[heap.length]? = some ⟨none, none, none, leaf⟩ :=
        getElem?_concat_length
      have hbuilt : LinkedTree.Built sha256 nodeMessage heap (heap ++ [⟨none, none, none, leaf⟩])
          (.leaf heap.length leaf) :=
        ⟨hleaf, nodup_singleton _, fun j hj => .inl hj, by simp, fun j hj _ => getElem?_append_left hj⟩
      refine ⟨_, _, rfl, hbuilt, fun j hj => ?_, rfl, trivial⟩
      rw [mem_singleton.mp hj]
    | a :: b :: rest, _ =>
      have htwo : 2 ≤ (a :: b :: rest).length := by simp
      generalize hleaves : a :: b :: rest = leaves at htwo hfuel hle ⊢
      have hlt := splitSize_lt htwo
      have hpos := splitSize_pos leaves.length
      obtain ⟨leftCount, hcount, hposition⟩ :=
        Option.map_eq_some_iff.mp (slicePosition_highestPowerOf2LessThan htwo hle)
      obtain ⟨l, heap1, hl, hlbuilt, hlids, hlleaves, hlsplit⟩ :=
        @ih (leaves.take (splitSize leaves.length)) heap (length_pos_iff.mp (by rw [length_take]; omega))
          (by rw [length_take]; omega) (by rw [length_take]; omega)
      obtain ⟨r, heap2, hr, hrbuilt, hrids, hrleaves, hrsplit⟩ :=
        @ih (leaves.drop (splitSize leaves.length)) heap1 (length_pos_iff.mp (by rw [length_drop]; omega))
          (by rw [length_drop]; omega) (by rw [length_drop]; omega)
      have hfresh : ∀ j ∈ r.leafIds, j ∉ l.ids := fun j hj hj' =>
        absurd (hlbuilt.inHeap.lt_length j hj') (not_lt.mpr (hrids j hj))
      obtain ⟨heap3, hlink, hbuilt⟩ := hlbuilt.link hrbuilt hfresh
      refine ⟨_, heap3, ?_, hbuilt, ?_, ?_, ?_, hlsplit, hrsplit⟩
      · rw [← hleaves, calculateRoot, hleaves, hcount]
        · simp only [Option.bind_eq_bind, Option.bind_some, hposition, hl, hr, hlink]
          rfl
        · simp
        · simp
      · intro j hj
        rcases mem_append.mp hj with hj | hj
        · exact hlids j hj
        · exact hlbuilt.length.trans (hrids j hj)
      · rw [LinkedTree.erase, HashTree.leaves, hlleaves, hrleaves, take_append_drop]
      · rw [← HashTree.length_leaves, ← HashTree.length_leaves, hlleaves, hrleaves, length_take,
          length_drop, Nat.min_eq_left hlt.le, Nat.add_sub_cancel' hlt.le]

theorem new_eq (h : leaves ≠ []) (hle : leaves.length ≤ 2 ^ 31) :
    ∃ tree t, Merkle.new sha256 leaves = some tree ∧ t.leaves = leaves ∧ t.IsSplit ∧
      tree.getRoot = some (t.value sha256 nodeMessage) ∧ tree.view = .of sha256 t := by
  obtain ⟨t, heap, hroot, hbuilt, -, hleaves, hsplit⟩ := @calculateRoot_eq sha256 _ _ [] h (Nat.le_succ _) hle
  refine ⟨⟨leaves, heap, t.id, t.leafIds⟩, t.erase, ?_, hleaves, hsplit, ?_, ?_⟩
  · rw [Merkle.new, hroot]
    rfl
  · obtain ⟨root, hget, -, hvalue⟩ := hbuilt.inHeap.getElem?_id
    simp only [Merkle.getRoot, hget, Option.map_some, hvalue]
  · have hlength : leaves.length = t.leafIds.length := by
      rw [← hleaves, HashTree.length_leaves, LinkedTree.length_leafIds]
    rw [Merkle.view, TreeView.of, TreeView.mk.injEq]
    refine ⟨by rw [← hleaves, HashTree.length_leaves], funext hbuilt.inHeap.leaf_value, funext fun i => ?_⟩
    rw [Merkle.getProof, ← LinkedTree.length_leafIds, hlength]
    by_cases hi : i < t.leafIds.length
    · have hnode := getElem?_eq_getElem hi
      rw [if_neg (not_le.mpr hi), if_pos hi, hnode]
      exact LinkedTree.siblings_eq_path findsSibling hbuilt.inHeap hbuilt.nodup hnode
    · rw [if_pos (not_lt.mp hi), if_neg hi]

end JavaScript

/-- The three clients build one tree. -/
theorem clients_serve_tree (h : leaves ≠ []) (hle : leaves.length ≤ 2 ^ 31) :
    ∃ t, t.leaves = leaves ∧ t.IsSplit ∧ (∃ tree, Python.MerkleTree.init sha256 leaves = some tree ∧
        tree.root = some (t.value sha256 nodeMessage) ∧ tree.view = .of sha256 t) ∧
      (∃ tree, JavaScript.Merkle.new sha256 leaves = some tree ∧
        tree.getRoot = some (t.value sha256 nodeMessage) ∧ tree.view = .of sha256 t) ∧
      ∃ tree, Rust.MerkleTree.new sha256 leaves = some tree ∧
        tree.rootHash = some (t.value sha256 nodeMessage) ∧ tree.view = .of sha256 t := by
  obtain ⟨python, t, hpython, hleaves, hsplit, hserves⟩ := @Python.init_eq sha256 _ h
  obtain ⟨javaScript, t', hjavaScript, hleaves', hsplit', hserves'⟩ := @JavaScript.new_eq sha256 _ h hle
  obtain ⟨rust, t'', hrust, hleaves'', hsplit'', hserves''⟩ := @Rust.new_eq sha256 _ h
  obtain rfl := hsplit.unique hsplit' (hleaves.trans hleaves'.symm)
  obtain rfl := hsplit.unique hsplit'' (hleaves.trans hleaves''.symm)
  exact ⟨t, hleaves, hsplit, ⟨python, hpython, hserves⟩, ⟨javaScript, hjavaScript, hserves'⟩,
    ⟨rust, hrust, hserves''⟩⟩

end LedgerBabylon
