import LedgerBabylon.Client.Merkle

/-!
# Updating the Merkle trees of the Python client

`add` walks down the right side of the tree to a subtree whose size is a power of two, and puts the new
leaf beside it. It halves a size with `/=`, which makes it a floating point number, so a second step of
the walk ends in an exception. Trees whose numbers of leaves have at most two binary digits set need no
second step; for them `add` and `set` give what a tree built from scratch has.
-/

namespace LedgerBabylon.Python

open LinkedTree List

variable {n : Nat} {heap : List (LinkedNode Digest)} {t : LinkedTree Digest} {elements : List Digest}

variable (sha256 : Bytes → Digest)

def ceilLgLoop (n : Nat) : Nat → Nat → Nat → Option Nat
  | 0, _, _ => none
  | fuel + 1, t, r => if t < n then ceilLgLoop n fuel (2 * t) (r + 1) else some r

def ceilLg (n : Nat) : Option Nat := if n = 0 then none else ceilLgLoop n n 1 0

theorem ceilLgLoop_eq {fuel r : Nat} (hlt : 2 ^ r < 2 * n) (hpos : 0 < fuel) (hfuel : n ≤ r + fuel) :
    ∃ d, ceilLgLoop n fuel (2 ^ r) r = some d ∧ n ≤ 2 ^ d ∧ 2 ^ d < 2 * n := by
  induction fuel generalizing r with
  | zero => omega
  | succ fuel ih =>
    rw [ceilLgLoop]
    split_ifs with hmore
    · have hr := Nat.lt_two_pow_self (n := r)
      rw [Nat.mul_comm 2, ← Nat.pow_succ]
      exact ih (by rw [Nat.pow_succ]; omega) (by omega) (by omega)
    · exact ⟨r, rfl, not_lt.mp hmore, hlt⟩

theorem ceilLg_eq (h : 0 < n) : ∃ d, ceilLg n = some d ∧ n ≤ 2 ^ d ∧ 2 ^ d < 2 * n := by
  rw [ceilLg, if_neg (by omega)]
  exact ceilLgLoop_eq (r := 0) (by omega) h (by omega)

inductive Number
  | int (n : Int)
  | float

def Number.sub : Number → Number → Number
  | .int a, .int b => .int (a - b)
  | _, _ => .float

def Number.half : Number → Number := fun _ => .float

def Number.isPowerOf2 : Number → Option Bool
  | .int n => if 1 ≤ n then some (LedgerBabylon.isPowerOf2 n.toNat) else none
  | .float => none

structure DynamicTree extends MerkleTree where
  depth : Option Nat

variable {tree : DynamicTree}

def DynamicTree.init (elements : List Digest) : Option DynamicTree := do
  let tree ← MerkleTree.init sha256 elements
  if 0 < elements.length then return ⟨tree, some (← ceilLg elements.length)⟩
  else return ⟨tree, none⟩

def descend (heap : List (LinkedNode Digest)) : Nat → Nat → Number → Number → Option Nat
  | 0, _, _, _ => none
  | fuel + 1, curRoot, curRootSize, ltreeSize => do
    if ← curRootSize.isPowerOf2 then return curRoot
    else
      let cur ← heap[curRoot]?
      descend heap fuel (← cur.right) (curRootSize.sub ltreeSize) ltreeSize.half

def setRight (right : Nat) (n : LinkedNode Digest) : LinkedNode Digest := { n with right := some right }

def DynamicTree.add (tree : DynamicTree) (x : Digest) : Option DynamicTree :=
  let newLeaf := tree.heap.length
  let heap := tree.heap ++ [⟨none, none, none, x⟩]
  let leaves := tree.leaves ++ [newLeaf]
  if leaves.length = 1 then some ⟨⟨heap, leaves, some newLeaf⟩, some 0⟩
  else do
    let depth ← tree.depth
    let ltreeSize := if depth = 0 then 0 else 1 <<< (depth - 1)
    let curRoot ← descend heap leaves.length (← tree.rootNode) (.int (leaves.length - 1 : Nat))
      (.int (ltreeSize : Nat))
    let cur ← heap[curRoot]?
    let newNode := heap.length
    -- the value is computed later
    let heap := heap ++ [⟨some curRoot, some newLeaf, cur.parent, Digest.ofNat 0⟩]
    let (heap, rootNode, depth) ← match cur.parent with
      | none => some (heap, some newNode, depth + 1)
      | some p => do
        let parent ← heap[p]?
        if parent.right = some curRoot then some (heap.modify p (setRight newNode), tree.rootNode, depth)
        else none
    let heap := (heap.modify curRoot (setParent newNode)).modify newLeaf (setParent newNode)
    let heap ← fixUp sha256 nodeMessage heap.length heap (some newNode)
    return ⟨⟨heap, leaves, rootNode⟩, some depth⟩

def DynamicTree.set (tree : DynamicTree) (index : Int) (x : Digest) : Option DynamicTree :=
  if 0 ≤ index ∧ index ≤ tree.leaves.length then
    if index = tree.leaves.length then tree.add sha256 x
    else do
      let leaf ← tree.leaves[index.toNat]?
      let node ← tree.heap[leaf]?
      let heap := tree.heap.modify leaf (setValue x)
      let heap ← fixUp sha256 nodeMessage heap.length heap node.parent
      return { tree with heap }
  else none

inductive Update
  | add (x : Digest)
  | set (index : Int) (x : Digest)

variable {updates : List Update} {tree' : DynamicTree}

def Update.run (tree : DynamicTree) : Update → Option DynamicTree
  | .add x => tree.add sha256 x
  | .set index x => tree.set sha256 index x

def Update.apply (elements : List Digest) : Update → List Digest
  | .add x => elements ++ [x]
  | .set index x => if index = elements.length then elements ++ [x] else elements.set index.toNat x

variable {sha256}

theorem inHeap_append {parent : Option Nat} (h : InHeap sha256 nodeMessage heap parent t)
    (nodes : List (LinkedNode Digest)) : InHeap sha256 nodeMessage (heap ++ nodes) parent t :=
  h.congr fun j hj => getElem?_append_left (h.lt_length j hj)

theorem nodup_graft (hnodup : t.ids.Nodup) (hlt : ∀ j ∈ t.ids, j < n)
    (x : Digest) : (LinkedTree.node (n + 1) t (.leaf n x)).ids.Nodup := by
  have hleaf : n ∉ t.ids := fun hmem => absurd (hlt _ hmem) (lt_irrefl _)
  have hnode : n + 1 ∉ t.ids := fun hmem => absurd (hlt _ hmem) (by omega)
  simp only [ids, nodup_cons, mem_append, mem_singleton, not_or]
  exact ⟨⟨hnode, by omega⟩, hnodup.append (nodup_singleton n) (by simpa using hleaf)⟩

/-- A new node over a subtree and a new leaf, before its value is computed. -/
theorem graft {parent : Option Nat}
    (h : InHeap sha256 nodeMessage heap parent t) (hnodup : t.ids.Nodup) (x : Digest)
    {fresh : List (LinkedNode Digest)}
    (hfresh : fresh = [⟨none, none, none, x⟩, ⟨some t.id, some heap.length, parent, Digest.ofNat 0⟩]) :
    ∃ heap', (∀ fuel, fixUp sha256 nodeMessage (fuel + 1)
        (((heap ++ fresh).modify t.id (setParent (heap.length + 1))).modify heap.length
          (setParent (heap.length + 1))) (some (heap.length + 1)) =
        fixUp sha256 nodeMessage fuel heap' parent) ∧
      InHeap sha256 nodeMessage heap' parent (.node (heap.length + 1) t (.leaf heap.length x)) ∧
      ∀ j < heap.length, j ≠ t.id → heap'[j]? = heap[j]? := by
  have hids := nodup_graft hnodup h.lt_length x
  have hlt := h.lt_length
  have hid := hlt t.id t.id_mem_ids
  have hleaf : heap.length ∉ t.ids := fun hmem => absurd (hlt _ hmem) (lt_irrefl _)
  obtain ⟨heap', hfix, hinHeap, hothers⟩ := @fixUp_step _ _ sha256 nodeMessage
    (((heap ++ fresh).modify t.id (setParent (heap.length + 1))).modify heap.length
      (setParent (heap.length + 1))) parent (heap.length + 1) t (.leaf heap.length x) (Digest.ofNat 0)
    (by
      rw [getElem?_modify_ne _ _ (by omega), getElem?_modify_ne _ _ (by omega), hfresh,
        getElem?_append_right (by omega)]
      simp [LinkedTree.id])
    (((inHeap_append h fresh).setParent hnodup _).modify_of_notMem hleaf _)
    (by
      show (modify _ heap.length _)[heap.length]? = _
      rw [getElem?_modify_eq, getElem?_modify_ne _ _ (by omega), hfresh, getElem?_append_right (by omega)]
      simp [LinkedTree.setParent])
    hids
  refine ⟨heap', hfix, hinHeap, fun j hj hne => ?_⟩
  rw [hothers j (by omega), getElem?_modify_ne _ _ (by omega), getElem?_modify_ne _ _ hne.symm,
    getElem?_append_left hj]

theorem modify_append_left {α : Type} {l l' : List α} {i : Nat} (h : i < l.length) (f : α → α) :
    (l ++ l').modify i f = l.modify i f ++ l' := by
  induction l generalizing i with
  | nil => cases h
  | cons a l ih =>
    cases i with
    | zero => rfl
    | succ i => simp [ih (Nat.lt_of_succ_lt_succ h)]

def canGrow (n : Nat) : Bool := isPowerOf2 n || isPowerOf2 (n - splitSize n)

theorem descend_float (heap : List (LinkedNode Digest)) (fuel id : Nat) (ltreeSize : Number) :
    descend heap fuel id .float ltreeSize = none := by
  cases fuel <;> rfl

theorem isPowerOf2_int (h : 0 < n) : (Number.int n).isPowerOf2 = some (isPowerOf2 n) := by
  rw [Number.isPowerOf2, if_pos (by omega), Int.toNat_natCast]

theorem descend_root (hn : 0 < n) (hpow : isPowerOf2 n) (heap : List (LinkedNode Digest))
    (id : Nat) (ltreeSize : Number) : descend heap (n + 1) id (.int n) ltreeSize = some id := by
  simp [descend, isPowerOf2_int hn, hpow]

/-- One step leads to the right subtree, and a second one nowhere. -/
theorem descend_right {parent : Option Nat} {id : Nat}
    {left right : LinkedTree Digest} (h : InHeap sha256 nodeMessage heap parent (.node id left right))
    (hpow : isPowerOf2 (left.erase.size + right.erase.size) = false) :
    descend heap (left.erase.size + right.erase.size + 1) id (.int (left.erase.size + right.erase.size : Nat))
        (.int left.erase.size) =
      if isPowerOf2 right.erase.size then some right.id else none := by
  have hleft := left.erase.size_pos
  have hright := right.erase.size_pos
  obtain ⟨fuel, hfuel⟩ : ∃ fuel, left.erase.size + right.erase.size = fuel + 1 :=
    ⟨left.erase.size + right.erase.size - 1, by omega⟩
  have hsub : (Number.int (left.erase.size + right.erase.size : Nat)).sub (.int left.erase.size) =
      .int right.erase.size := by
    rw [Number.sub, Nat.cast_add, add_sub_cancel_left]
  rw [descend, isPowerOf2_int (by omega), hpow, hsub, h.1, hfuel]
  simp only [Option.bind_eq_bind, Option.bind_some, Bool.false_eq_true, if_false]
  rw [descend, isPowerOf2_int hright]
  simp only [Option.bind_eq_bind, Option.bind_some, Number.sub, Number.half, descend_float]
  split_ifs
  · rfl
  · simp

theorem ltreeSize_eq {d : Nat} (hle : n ≤ 2 ^ d) (hlt : 2 ^ d < 2 * n) (hn : 2 ≤ n) :
    (if d = 0 then 0 else 1 <<< (d - 1)) = splitSize n := by
  cases d with
  | zero => omega
  | succ k =>
    have hpow := Nat.pow_succ 2 k
    rw [if_neg (Nat.succ_ne_zero k), Nat.one_shiftLeft, Nat.add_sub_cancel, splitSize_eq (by omega) hle]

variable (sha256) in
structure DynamicTree.Represents (tree : DynamicTree) (t : LinkedTree Digest) : Prop where
  inHeap : InHeap sha256 nodeMessage tree.heap none t
  nodup : t.ids.Nodup
  leaves : tree.leaves = t.leafIds
  rootNode : tree.rootNode = some t.id
  isSplit : t.erase.IsSplit
  depth : ∃ d, tree.depth = some d ∧ t.erase.size ≤ 2 ^ d ∧ 2 ^ d < 2 * t.erase.size

theorem splitSize_succ (h : 0 < n) (hpow : isPowerOf2 n) : splitSize (n + 1) = n := by
  obtain ⟨k, rfl⟩ := (isPowerOf2_iff h).mp hpow
  rw [splitSize, Nat.add_sub_cancel, Nat.log_pow (by omega)]

theorem add_of_isPowerOf2 (h : tree.Represents sha256 t) (hpow : isPowerOf2 t.erase.size) (x : Digest) :
    ∃ tree' t', tree.add sha256 x = some tree' ∧ tree'.Represents sha256 t' ∧
      t'.erase.leaves = t.erase.leaves ++ [x] := by
  obtain ⟨⟨heap, leaves, rootNode⟩, depth⟩ := tree
  obtain ⟨hinHeap, hnodup, hleaves, hroot, hsplit, d, hdepth, hle, hlt⟩ := h
  dsimp only at hinHeap hleaves hroot hdepth
  subst hleaves hroot hdepth
  have hpos := t.erase.size_pos
  obtain ⟨n, hn, hparent, -⟩ := hinHeap.getElem?_id
  obtain ⟨heap', hfix, hinHeap', -⟩ := graft hinHeap hnodup x rfl
  obtain ⟨k, hk⟩ := (isPowerOf2_iff hpos).mp hpow
  have hd : 2 ^ d = t.erase.size := by
    have hkd : d < k + 1 := (Nat.pow_lt_pow_iff_right (a := 2) (by omega)).mp (by rw [Nat.pow_succ]; omega)
    have := Nat.pow_le_pow_right (n := 2) (by omega) (Nat.le_of_lt_succ hkd)
    omega
  refine ⟨⟨⟨heap', t.leafIds ++ [heap.length], some (heap.length + 1)⟩, some (d + 1)⟩,
    .node (heap.length + 1) t (.leaf heap.length x), ?_, ⟨hinHeap', nodup_graft hnodup hinHeap.lt_length x,
      rfl, rfl, ⟨?_, hsplit, trivial⟩, d + 1, rfl, ?_, ?_⟩, rfl⟩
  · have hcur : (heap ++ [⟨none, none, none, x⟩])[t.id]? = some n := by
      rw [getElem?_append_left (hinHeap.lt_length _ t.id_mem_ids), hn]
    rw [DynamicTree.add]
    simp only [length_append, length_leafIds, length_singleton, Option.bind_eq_bind,
      Option.bind_some, Nat.add_sub_cancel, descend_root hpos hpow, hcur, hparent, length_modify,
      append_assoc, singleton_append, if_neg (show t.erase.size + 1 ≠ 1 by omega)]
    exact congrArg (Option.bind · _) (hfix (heap.length + 1))
  · exact (splitSize_succ hpos hpow).symm
  · show t.erase.size + 1 ≤ _
    rw [Nat.pow_succ]
    omega
  · show _ < 2 * (t.erase.size + 1)
    rw [Nat.pow_succ]
    omega

theorem add_right {id : Nat} {left right : LinkedTree Digest}
    (h : tree.Represents sha256 (.node id left right))
    (hnot : isPowerOf2 (left.erase.size + right.erase.size) = false) (hpow : isPowerOf2 right.erase.size)
    (x : Digest) :
    ∃ tree' t', tree.add sha256 x = some tree' ∧ tree'.Represents sha256 t' ∧
      t'.erase.leaves = (LinkedTree.node id left right).erase.leaves ++ [x] := by
  obtain ⟨⟨heap, leaves, rootNode⟩, depth⟩ := tree
  obtain ⟨hinHeap, hnodup, hleaves, hroot, hsplit, d, hdepth, hle, hlt⟩ := h
  dsimp only at hinHeap hleaves hroot hdepth
  subst hleaves hroot hdepth
  have hdescend := descend_right (inHeap_append hinHeap [⟨none, none, none, x⟩]) hnot
  rw [if_pos hpow] at hdescend
  obtain ⟨value, hid⟩ : ∃ value, heap[id]? = some ⟨some left.id, some right.id, none, value⟩ := ⟨_, hinHeap.1⟩
  obtain ⟨-, hleft, hright⟩ := hinHeap
  obtain ⟨hlsize, hlsplit, hrsplit⟩ := hsplit
  obtain ⟨hnotMem, happend⟩ := nodup_cons.mp hnodup
  obtain ⟨hlnodup, hrnodup, hdisjoint⟩ := nodup_append.mp happend
  rw [mem_append, not_or] at hnotMem
  have hlpos := left.erase.size_pos
  have hrpos := right.erase.size_pos
  have hidLt : id < heap.length := (List.getElem?_eq_some_iff.mp hid).1
  have hidNe : id ≠ right.id := fun heq => hnotMem.2 (heq ▸ right.id_mem_ids)
  obtain ⟨rn, hrn, hrparent, -⟩ := hright.getElem?_id
  have hrlt := hright.lt_length _ right.id_mem_ids
  -- the parent of the subtree gets the new node as its right child
  obtain ⟨heap2, hfix2, hright2, hothers2⟩ :=
    graft (hright.modify_of_notMem hnotMem.2 (setRight (heap.length + 1))) hrnodup x rfl
  rw [length_modify] at hfix2 hright2 hothers2
  have hleft2 : InHeap sha256 nodeMessage heap2 (some id) left := by
    apply hleft.congr
    intro j hj
    rw [hothers2 j (hleft.lt_length j hj) (hdisjoint j hj _ right.id_mem_ids), getElem?_modify_ne]
    rintro rfl
    exact hnotMem.1 hj
  have hnodup3 : (LinkedTree.node id left (.node (heap.length + 1) right (.leaf heap.length x))).ids.Nodup := by
    refine nodup_cons.mpr ⟨?_, hlnodup.append (nodup_graft hrnodup hright.lt_length x) fun j hj hj' => ?_⟩
    · simp only [ids, mem_append, mem_cons, not_mem_nil, or_false, not_or]
      exact ⟨hnotMem.1, by omega, hnotMem.2, by omega⟩
    · have hjlt := hleft.lt_length j hj
      simp only [ids, mem_append, mem_cons, not_mem_nil, or_false] at hj'
      rcases hj' with rfl | hj' | rfl
      · omega
      · exact hdisjoint j hj j hj' rfl
      · omega
  obtain ⟨heap3, hfix3, htree, -⟩ := fixUp_step
    (by rw [hothers2 id hidLt hidNe, getElem?_modify_eq, hid]; rfl) hleft2 hright2 hnodup3
  simp only [erase, HashTree.size] at hle hlt
  have htwo : 2 ≤ left.erase.size + right.erase.size := by omega
  have hne : left.erase.size + right.erase.size ≠ 2 ^ d := fun heq => by
    rw [(isPowerOf2_iff (by omega)).mpr ⟨_, heq⟩] at hnot
    cases hnot
  refine ⟨⟨⟨heap3, (LinkedTree.node id left right).leafIds ++ [heap.length], some id⟩, some d⟩,
    .node id left (.node (heap.length + 1) right (.leaf heap.length x)), ?_,
    ⟨htree, hnodup3, ?_, rfl, ⟨?_, hlsplit, ?_, hrsplit, trivial⟩, d, rfl, ?_, ?_⟩, ?_⟩
  · have hcur : (heap ++ [⟨none, none, none, x⟩])[right.id]? = some rn := by
      rw [getElem?_append_left hrlt, hrn]
    have hparent : (heap ++ [⟨none, none, none, x⟩, ⟨some right.id, some heap.length, some id, Digest.ofNat 0⟩])[id]? =
        some ⟨some left.id, some right.id, none, value⟩ := by
      rw [getElem?_append_left hidLt, hid]
    rw [DynamicTree.add]
    simp only [length_append, length_leafIds, length_singleton, Option.bind_eq_bind, erase,
      HashTree.size, show (LinkedTree.node id left right).id = id from rfl,
      ltreeSize_eq hle hlt htwo, ← hlsize,
      Option.bind_some, Nat.add_sub_cancel, hdescend, hcur, hrparent, hparent, length_modify, if_true,
      append_assoc, singleton_append, modify_append_left hidLt,
      if_neg (show left.erase.size + right.erase.size + 1 ≠ 1 by omega)]
    have hfix := (hfix2 (heap.length + 1)).trans (hfix3 heap.length)
    rw [fixUp_none] at hfix
    exact congrArg (Option.bind · _) hfix
  · simp [leafIds]
  · exact hlsize.trans (splitSize_of_not_isPowerOf2 htwo (Bool.eq_false_iff.mp hnot))
  · exact (splitSize_succ hrpos hpow).symm
  · show left.erase.size + (right.erase.size + 1) ≤ _
    omega
  · show _ < 2 * (left.erase.size + (right.erase.size + 1))
    omega
  · simp [erase, HashTree.leaves]

/-- `add` succeeds at the sizes that need at most one step, and fails at all others. -/
theorem add_represents (h : tree.Represents sha256 t) (hgrow : canGrow t.erase.size) (x : Digest) :
    ∃ tree' t', tree.add sha256 x = some tree' ∧ tree'.Represents sha256 t' ∧
      t'.erase.leaves = t.erase.leaves ++ [x] := by
  rw [canGrow, Bool.or_eq_true] at hgrow
  by_cases hpow : isPowerOf2 t.erase.size
  · exact add_of_isPowerOf2 h hpow x
  · cases t with
    | leaf id value => exact absurd (show isPowerOf2 1 by decide) hpow
    | node id left right =>
      refine add_right h (Bool.not_eq_true _ ▸ hpow) ?_ x
      have hright := hgrow.resolve_left hpow
      rwa [erase, HashTree.size, ← h.isSplit.1, Nat.add_sub_cancel_left] at hright

theorem add_eq_none (h : tree.Represents sha256 t)
    (hgrow : canGrow t.erase.size = false) (x : Digest) : tree.add sha256 x = none := by
  obtain ⟨d, hdepth, hle, hlt⟩ := h.depth
  rw [canGrow, Bool.or_eq_false_iff] at hgrow
  obtain ⟨hpow, hright⟩ := hgrow
  cases t with
  | leaf id value => exact absurd (show isPowerOf2 1 by decide) (Bool.eq_false_iff.mp hpow)
  | node id left right =>
    have hlpos := left.erase.size_pos
    have hrpos := right.erase.size_pos
    have hdescend := descend_right (inHeap_append h.inHeap [⟨none, none, none, x⟩]) hpow
    have hsplit := h.isSplit.1
    simp only [erase, HashTree.size] at hle hlt hright
    rw [← hsplit, Nat.add_sub_cancel_left] at hright
    rw [DynamicTree.add]
    simp only [h.leaves, h.rootNode, hdepth, length_append, length_leafIds, length_singleton,
      Option.bind_eq_bind, Option.bind_some, erase, HashTree.size, Nat.add_sub_cancel,
      show (LinkedTree.node id left right).id = id from rfl,
      ltreeSize_eq hle hlt (show 2 ≤ left.erase.size + right.erase.size by omega), ← hsplit, hdescend, hright,
      if_neg (show left.erase.size + right.erase.size + 1 ≠ 1 by omega), Bool.false_eq_true, if_false,
      Option.bind_none]

theorem set_represents (h : tree.Represents sha256 t)
    {index : Nat} (hindex : index < t.erase.size) (x : Digest) :
    ∃ tree' t', tree.set sha256 index x = some tree' ∧ tree'.Represents sha256 t' ∧
      t'.erase.leaves = t.erase.leaves.set index x := by
  have hself := getElem?_eq_getElem (show index < t.leafIds.length by rwa [length_leafIds])
  obtain ⟨n, heap, hn, hinHeap, -, hfix⟩ := fixUp_setLeaf h.inHeap h.nodup hself x
  have hpath := h.inHeap.length_path_lt h.nodup index
  refine ⟨{ tree with heap }, t.setLeaf x index, ?_, ⟨hinHeap, ?_, ?_, ?_, isSplit_setLeaf x h.isSplit index, ?_⟩,
    leaves_setLeaf x hindex⟩
  · have hfuel := hfix (tree.heap.length - (t.erase.path sha256 nodeMessage index).length)
    rw [Nat.sub_add_cancel hpath.le] at hfuel
    rw [DynamicTree.set, h.leaves, length_leafIds, if_pos (by omega), if_neg (by omega), Int.toNat_natCast, hself]
    simp only [Option.bind_eq_bind, Option.bind_some, hn, length_modify, hfuel, fixUp_none]
    rfl
  · rw [ids_setLeaf]
    exact h.nodup
  · rw [leafIds_setLeaf]
    exact h.leaves
  · rw [id_setLeaf]
    exact h.rootNode
  · rw [size_setLeaf]
    exact h.depth

variable (sha256) in
def DynamicTree.Holds (tree : DynamicTree) (elements : List Digest) : Prop :=
  (elements = [] ∧ tree.leaves = [] ∧ tree.rootNode = none) ∨
    ∃ t, tree.Represents sha256 t ∧ t.erase.leaves = elements

variable (sha256) in
theorem init_holds (elements : List Digest) :
    ∃ tree, DynamicTree.init sha256 elements = some tree ∧ tree.Holds sha256 elements := by
  by_cases h : elements = []
  · subst h
    exact ⟨_, rfl, Or.inl ⟨rfl, rfl, rfl⟩⟩
  · obtain ⟨t, heap, hinit, hinHeap, hnodup, hleaves, hsplit⟩ := @init_built sha256 _ h
    have hpos := length_pos_iff.mpr h
    obtain ⟨d, hd, hle, hlt⟩ := ceilLg_eq hpos
    rw [← hleaves, HashTree.length_leaves] at hle hlt
    refine ⟨⟨⟨heap, t.leafIds, some t.id⟩, some d⟩, ?_,
      Or.inr ⟨t, ⟨hinHeap, hnodup, rfl, rfl, hsplit, d, rfl, hle, hlt⟩, hleaves⟩⟩
    rw [DynamicTree.init, hinit]
    simp only [Option.bind_eq_bind, Option.bind_some, if_pos hpos, hd]
    rfl

theorem add_holds (h : tree.Holds sha256 elements) (hgrow : canGrow elements.length) (x : Digest) :
    ∃ tree', tree.add sha256 x = some tree' ∧ tree'.Holds sha256 (elements ++ [x]) := by
  rcases h with ⟨rfl, hleaves, -⟩ | ⟨t, ht, rfl⟩
  · refine ⟨⟨⟨tree.heap ++ [⟨none, none, none, x⟩], [tree.heap.length], some tree.heap.length⟩, some 0⟩, ?_,
      Or.inr ⟨.leaf tree.heap.length x, ⟨?_, nodup_singleton _, rfl, rfl, trivial, 0, rfl, ?_, ?_⟩, rfl⟩⟩
    · simp [DynamicTree.add, hleaves]
    · exact getElem?_concat_length
    · exact Nat.le_refl 1
    · exact Nat.one_lt_two
  · rw [HashTree.length_leaves] at hgrow
    obtain ⟨tree', t', hadd, ht', hleaves⟩ := add_represents ht hgrow x
    exact ⟨tree', hadd, Or.inr ⟨t', ht', hleaves⟩⟩

theorem add_none (h : tree.Holds sha256 elements)
    (hgrow : canGrow elements.length = false) (x : Digest) : tree.add sha256 x = none := by
  rcases h with ⟨rfl, -⟩ | ⟨t, ht, rfl⟩
  · exact absurd (show canGrow 0 by decide) (Bool.eq_false_iff.mp hgrow)
  · rw [HashTree.length_leaves] at hgrow
    exact add_eq_none ht hgrow x

theorem DynamicTree.Holds.length (h : tree.Holds sha256 elements) : tree.leaves.length = elements.length := by
  rcases h with ⟨rfl, hleaves, -⟩ | ⟨t, ht, rfl⟩
  · exact congrArg length hleaves
  · rw [ht.leaves, length_leafIds, HashTree.length_leaves]

def Update.Supported (n : Nat) : Update → Prop
  | .add _ => canGrow n
  | .set index _ => 0 ≤ index ∧ (index < n ∨ index = n ∧ canGrow n)

theorem run_holds (h : tree.Holds sha256 elements)
    (update : Update) (hsupported : update.Supported elements.length) :
    ∃ tree', update.run sha256 tree = some tree' ∧ tree'.Holds sha256 (update.apply elements) := by
  cases update with
  | add x => exact add_holds h hsupported x
  | set index x =>
    obtain ⟨hzero, hlt | ⟨rfl, hgrow⟩⟩ := hsupported
    · obtain ⟨index, rfl⟩ := Int.eq_ofNat_of_zero_le hzero
      rcases h with ⟨rfl, -⟩ | ⟨t, ht, rfl⟩
      · exact absurd (Int.ofNat_lt.mp hlt) (Nat.not_lt_zero _)
      · rw [HashTree.length_leaves] at hlt
        obtain ⟨tree', t', hset, ht', hleaves⟩ := set_represents ht (Int.ofNat_lt.mp hlt) x
        refine ⟨tree', hset, Or.inr ⟨t', ht', ?_⟩⟩
        rw [hleaves, Update.apply, if_neg (by rw [HashTree.length_leaves]; omega), Int.toNat_natCast]
    · obtain ⟨tree', hadd, htree'⟩ := add_holds h hgrow x
      refine ⟨tree', ?_, ?_⟩
      · rw [Update.run, DynamicTree.set, h.length, if_pos (by omega), if_pos rfl, hadd]
      · rwa [Update.apply, if_pos rfl]

theorem run_none (h : tree.Holds sha256 elements)
    (update : Update) (hsupported : ¬update.Supported elements.length) : update.run sha256 tree = none := by
  cases update with
  | add x => exact add_none h (Bool.not_eq_true _ ▸ hsupported) x
  | set index x =>
    rw [Update.run, DynamicTree.set, h.length]
    split_ifs with hrange hend
    · apply add_none h
      by_contra hgrow
      exact hsupported ⟨hrange.1, Or.inr ⟨hend, Bool.not_eq_false _ ▸ hgrow⟩⟩
    · exact absurd ⟨hrange.1, Or.inl (by omega)⟩ hsupported
    · rfl

def AllSupported : List Update → List Digest → Prop
  | [], _ => True
  | update :: updates, elements =>
    update.Supported elements.length ∧ AllSupported updates (update.apply elements)

theorem foldlM_run_holds (h : tree.Holds sha256 elements) (hsupported : AllSupported updates elements) :
    ∃ tree', updates.foldlM (Update.run sha256) tree = some tree' ∧
      tree'.Holds sha256 (updates.foldl Update.apply elements) := by
  induction updates generalizing tree elements with
  | nil => exact ⟨tree, rfl, h⟩
  | cons update updates ih =>
    obtain ⟨tree', hrun, htree'⟩ := run_holds h update hsupported.1
    rw [foldlM_cons, hrun]
    exact ih htree' hsupported.2

theorem allSupported_of_foldlM_run (h : tree.Holds sha256 elements)
    (hrun : updates.foldlM (Update.run sha256) tree = some tree') : AllSupported updates elements := by
  induction updates generalizing tree elements with
  | nil => trivial
  | cons update updates ih =>
    rw [foldlM_cons] at hrun
    by_cases hsupported : update.Supported elements.length
    · obtain ⟨tree1, hrun1, htree1⟩ := run_holds h update hsupported
      rw [hrun1] at hrun
      exact ⟨hsupported, ih htree1 hrun⟩
    · rw [run_none h update hsupported] at hrun
      cases hrun

/-- The leaves determine the root and the proofs. -/
theorem DynamicTree.Holds.same (h : tree.Holds sha256 elements) (h' : tree'.Holds sha256 elements) :
    tree.root = tree'.root ∧ ∀ index, tree.proveLeaf index = tree'.proveLeaf index := by
  have hof {tree : DynamicTree} {t : LinkedTree Digest} (ht : tree.Represents sha256 t) :
      tree.root = some (t.erase.value sha256 nodeMessage) ∧
        tree.proveLeaf = (TreeView.of sha256 t.erase).prove := by
    obtain ⟨⟨heap, leaves, rootNode⟩, depth⟩ := tree
    obtain ⟨hinHeap, hnodup, hleaves, hroot, -⟩ := ht
    dsimp only at hinHeap hleaves hroot
    subst hleaves hroot
    exact ⟨root_eq hinHeap _, congrArg TreeView.prove (view_eq hinHeap hnodup _)⟩
  rcases h with ⟨rfl, hleaves, hroot⟩ | ⟨t, ht, rfl⟩ <;> rcases h' with ⟨hnil, hleaves', hroot'⟩ | ⟨t', ht', heq⟩
  · simp [MerkleTree.root, MerkleTree.proveLeaf, hleaves, hroot, hleaves', hroot']
  · exact absurd (congrArg List.length heq) (by simpa using t'.erase.size_pos.ne')
  · exact absurd (congrArg List.length hnil) (by simpa using t.erase.size_pos.ne')
  · rw [(hof ht).1, (hof ht').1, (hof ht).2, (hof ht').2, ht'.isSplit.unique ht.isSplit heq]
    exact ⟨rfl, fun _ => rfl⟩

variable (sha256) in
/-- All updates of the tree succeed, and its root and its proofs are those of the tree built from the
resulting leaves. -/
def AgreesWithRebuilt (elements : List Digest) (updates : List Update) : Prop :=
  ∃ tree rebuilt, (DynamicTree.init sha256 elements >>= updates.foldlM (Update.run sha256)) = some tree ∧
    DynamicTree.init sha256 (updates.foldl Update.apply elements) = some rebuilt ∧
    tree.root = rebuilt.root ∧ ∀ index, tree.proveLeaf index = rebuilt.proveLeaf index

theorem agreesWithRebuilt_iff (sha256 : Bytes → Digest) (elements : List Digest)
    (updates : List Update) : AgreesWithRebuilt sha256 elements updates ↔ AllSupported updates elements := by
  obtain ⟨tree, hinit, htree⟩ := init_holds sha256 elements
  rw [AgreesWithRebuilt, hinit]
  constructor
  · rintro ⟨tree', -, hrun, -⟩
    exact allSupported_of_foldlM_run htree hrun
  · intro hsupported
    obtain ⟨tree', hrun, htree'⟩ := foldlM_run_holds htree hsupported
    obtain ⟨rebuilt, hrebuilt, hholds⟩ := init_holds sha256 (updates.foldl Update.apply elements)
    exact ⟨tree', rebuilt, hrun, hrebuilt, htree'.same hholds⟩

/-- The eighth leaf. -/
theorem not_agreesWithRebuilt_seven : ¬AgreesWithRebuilt (fun _ => Digest.ofNat 0)
    (replicate 7 (Digest.ofNat 0)) [.add (Digest.ofNat 0)] := by
  rintro ⟨tree, -, hrun, -⟩
  have hnone : ((DynamicTree.init (fun _ => Digest.ofNat 0) (replicate 7 (Digest.ofNat 0)) >>=
      [Update.add (Digest.ofNat 0)].foldlM (Update.run fun _ => Digest.ofNat 0))).isNone := by
    decide +kernel
  rw [hrun] at hnone
  cases hnone

end LedgerBabylon.Python
