import LedgerBabylon.Lib.SplitTree
import Mathlib.Data.List.Nodup
import Mathlib.Data.List.Perm.Subperm

/-!
# Hash trees with links to the parents

Nodes live in a heap and know their children and their parent. A heap holds a tree below a parent if all
links agree with it. Following the parents from a leaf then visits the siblings of its path, and two
trees of a heap are joined by a new node that becomes their parent.
-/

structure LinkedNode (D : Type) where
  left : Option Nat
  right : Option Nat
  parent : Option Nat
  value : D
  deriving DecidableEq

inductive LinkedTree (D : Type) where
  | leaf (id : Nat) (value : D)
  | node (id : Nat) (left right : LinkedTree D)

namespace LinkedTree

open List

variable {D M : Type} (hash : M → D) (node : D → D → M)

variable {heap : List (LinkedNode D)} {t : LinkedTree D} {sibling : Nat → LinkedNode D → Option Nat}
  {self i : Nat}

def id : LinkedTree D → Nat
  | .leaf id _ => id
  | .node id _ _ => id

def ids : LinkedTree D → List Nat
  | .leaf id _ => [id]
  | .node id left right => id :: (left.ids ++ right.ids)

def leafIds : LinkedTree D → List Nat
  | .leaf id _ => [id]
  | .node _ left right => left.leafIds ++ right.leafIds

def erase : LinkedTree D → HashTree D
  | .leaf _ value => .leaf value
  | .node _ left right => .node left.erase right.erase

def InHeap (heap : List (LinkedNode D)) : Option Nat → LinkedTree D → Prop
  | parent, .leaf id value => heap[id]? = some ⟨none, none, parent, value⟩
  | parent, .node id left right =>
    heap[id]? = some ⟨some left.id, some right.id, parent, (erase (.node id left right)).value hash node⟩ ∧
      InHeap heap (some id) left ∧ InHeap heap (some id) right

theorem id_mem_ids (t : LinkedTree D) : t.id ∈ t.ids := by
  cases t with
  | leaf id value => exact mem_singleton_self id
  | node id left right => exact mem_cons_self

@[simp] theorem length_leafIds (t : LinkedTree D) : t.leafIds.length = t.erase.size := by
  induction t with
  | leaf id value => rfl
  | node id left right ihl ihr => rw [leafIds, length_append, ihl, ihr, erase, HashTree.size]

theorem length_path_lt (t : LinkedTree D) (i : Nat) : (t.erase.path hash node i).length < t.ids.length := by
  induction t generalizing i with
  | leaf id value => exact Nat.one_pos
  | node id left right ihl ihr =>
    simp only [erase, HashTree.path, ids, length_cons, length_append]
    split_ifs with hi
    · have := ihl i
      simp only [length_append, length_singleton]
      omega
    · have := ihr (i - left.erase.size)
      simp only [length_append, length_singleton]
      omega

variable {hash node}

variable {parent : Option Nat}

theorem InHeap.getElem?_id (h : InHeap hash node heap parent t) :
    ∃ n, heap[t.id]? = some n ∧ n.parent = parent ∧ n.value = t.erase.value hash node := by
  cases t with
  | leaf id value => exact ⟨_, h, rfl, rfl⟩
  | node id left right => exact ⟨_, h.1, rfl, rfl⟩

theorem InHeap.lt_length (h : InHeap hash node heap parent t) : ∀ j ∈ t.ids, j < heap.length := by
  have hlt {j : Nat} {n : LinkedNode D} (hj : heap[j]? = some n) : j < heap.length :=
    (List.getElem?_eq_some_iff.mp hj).1
  induction t generalizing parent with
  | leaf id value =>
    intro j hj
    rw [mem_singleton.mp hj]
    exact hlt h
  | node id left right ihl ihr =>
    intro j hj
    rcases mem_cons.mp hj with rfl | hj
    · exact hlt h.1
    · rcases mem_append.mp hj with hj | hj
      · exact ihl h.2.1 j hj
      · exact ihr h.2.2 j hj

theorem InHeap.leaf_value (h : InHeap hash node heap parent t) (i : Nat) :
    (t.leafIds[i]?.bind (heap[·]?)).map LinkedNode.value = t.erase.leaves[i]? := by
  induction t generalizing parent i with
  | leaf id value =>
    have hid : heap[id]? = _ := h
    cases i with
    | zero => simp [leafIds, erase, HashTree.leaves, hid]
    | succ i => simp [leafIds, erase, HashTree.leaves]
  | node id left right ihl ihr =>
    obtain ⟨-, hleft, hright⟩ := h
    rw [leafIds, erase, HashTree.leaves]
    by_cases hi : i < left.erase.size
    · rw [getElem?_append_left (by rwa [length_leafIds]),
        getElem?_append_left (by rwa [HashTree.length_leaves]), ihl hleft]
    · rw [getElem?_append_right (by rw [length_leafIds]; omega),
        getElem?_append_right (by rw [HashTree.length_leaves]; omega), length_leafIds,
        HashTree.length_leaves, ihr hright]

theorem InHeap.congr {heap' : List (LinkedNode D)}
    (h : InHeap hash node heap parent t) (heq : ∀ j ∈ t.ids, heap'[j]? = heap[j]?) :
    InHeap hash node heap' parent t := by
  induction t generalizing parent with
  | leaf id value =>
    show heap'[id]? = _
    rw [heq id (mem_singleton_self id)]
    exact h
  | node id left right ihl ihr =>
    obtain ⟨hroot, hleft, hright⟩ := h
    refine ⟨?_, ihl hleft fun j hj => ?_, ihr hright fun j hj => ?_⟩
    · rw [heq id mem_cons_self, hroot]
    · exact heq j (mem_cons_of_mem _ (mem_append_left _ hj))
    · exact heq j (mem_cons_of_mem _ (mem_append_right _ hj))

theorem InHeap.length_path_lt (h : InHeap hash node heap parent t)
    (hnodup : t.ids.Nodup) (i : Nat) : (t.erase.path hash node i).length < heap.length := by
  have hsubset : t.ids ⊆ range heap.length := fun j hj => mem_range.mpr (h.lt_length j hj)
  apply (t.length_path_lt hash node i).trans_le
  simpa using (Nodup.subperm hnodup hsubset).length_le

def siblings (sibling : Nat → LinkedNode D → Option Nat) (heap : List (LinkedNode D)) :
    Nat → Nat → Option (List D)
  | 0, _ => none
  | fuel + 1, self => do
    let n ← heap[self]?
    match n.parent with
    | none => return []
    | some p => do
      let parent ← heap[p]?
      let other ← sibling self parent
      let otherNode ← heap[other]?
      let rest ← siblings sibling heap fuel p
      return otherNode.value :: rest

def FindsSibling (sibling : Nat → LinkedNode D → Option Nat) : Prop :=
  ∀ (l r : Nat) (parent : LinkedNode D), l ≠ r → parent.left = some l → parent.right = some r →
    sibling l parent = some r ∧ sibling r parent = some l

theorem siblings_step {p other : Nat} {n parent otherNode : LinkedNode D} (hself : heap[self]? = some n)
    (hp : n.parent = some p) (hparent : heap[p]? = some parent) (hsibling : sibling self parent = some other)
    (hother : heap[other]? = some otherNode) (fuel : Nat) :
    siblings sibling heap (fuel + 1) self = (siblings sibling heap fuel p).map (otherNode.value :: ·) := by
  simp only [siblings, hself, Option.bind_eq_bind, Option.bind_some, hp, hparent, hsibling, hother,
    Option.map_eq_bind]
  rfl

theorem siblings_path (hsibling : FindsSibling sibling)
    (h : InHeap hash node heap parent t) (hnodup : t.ids.Nodup) (hself : t.leafIds[i]? = some self)
    (fuel : Nat) :
    siblings sibling heap (fuel + (t.erase.path hash node i).length) self =
      (siblings sibling heap fuel t.id).map (((t.erase.path hash node i).map Prod.snd) ++ ·) := by
  induction t generalizing i parent fuel with
  | leaf id value =>
    obtain rfl : self = id := by
      cases i with
      | zero => exact (Option.some.inj hself).symm
      | succ i => cases hself
    simp [erase, HashTree.path, LinkedTree.id]
  | node id left right ihl ihr =>
    obtain ⟨hroot, hleft, hright⟩ := h
    obtain ⟨hnotMem, happend⟩ := nodup_cons.mp hnodup
    obtain ⟨hlnodup, hrnodup, hdisjoint⟩ := nodup_append.mp happend
    obtain ⟨ln, hln, hlparent, hlvalue⟩ := hleft.getElem?_id
    obtain ⟨rn, hrn, hrparent, hrvalue⟩ := hright.getElem?_id
    obtain ⟨hlr, hrl⟩ := hsibling left.id right.id ⟨some left.id, some right.id, parent, _⟩
      (hdisjoint _ left.id_mem_ids _ right.id_mem_ids) rfl rfl
    simp only [erase, HashTree.path]
    rw [leafIds] at hself
    by_cases hi : i < left.erase.size
    · rw [getElem?_append_left (by rwa [length_leafIds])] at hself
      rw [if_pos hi, length_append, length_singleton, Nat.add_comm _ 1, ← Nat.add_assoc,
        ihl hleft hlnodup hself, siblings_step hln hlparent hroot hlr hrn, hrvalue]
      simp [Function.comp_def, LinkedTree.id]
    · rw [getElem?_append_right (by rw [length_leafIds]; omega), length_leafIds] at hself
      rw [if_neg hi, length_append, length_singleton, Nat.add_comm _ 1, ← Nat.add_assoc,
        ihr hright hrnodup hself, siblings_step hrn hrparent hroot hrl hln, hlvalue]
      simp [Function.comp_def, LinkedTree.id]

theorem siblings_eq_path (hsibling : FindsSibling sibling) (h : InHeap hash node heap none t)
    (hnodup : t.ids.Nodup) (hself : t.leafIds[i]? = some self) :
    siblings sibling heap heap.length self = some ((t.erase.path hash node i).map Prod.snd) := by
  obtain ⟨root, hroot, hparent, -⟩ := h.getElem?_id
  have hpath := h.length_path_lt hnodup i
  obtain ⟨fuel, hfuel⟩ : ∃ fuel, heap.length = fuel + 1 + (t.erase.path hash node i).length :=
    ⟨heap.length - 1 - (t.erase.path hash node i).length, by omega⟩
  have hend : siblings sibling heap (fuel + 1) t.id = some [] := by
    simp [siblings, hroot, hparent]
  rw [hfuel, siblings_path hsibling h hnodup hself, hend, Option.map_some, append_nil]

def setParent (p : Nat) (n : LinkedNode D) : LinkedNode D := { n with parent := some p }

variable (hash node) in
def link (heap : List (LinkedNode D)) (l r : Nat) : Option (Nat × List (LinkedNode D)) := do
  let ln ← heap[l]?
  let rn ← heap[r]?
  let root : LinkedNode D := ⟨some l, some r, none, hash (node ln.value rn.value)⟩
  return (heap.length, ((heap ++ [root]).modify l (setParent heap.length)).modify r (setParent heap.length))

theorem InHeap.modify_of_notMem
    (h : InHeap hash node heap parent t) {j : Nat} (hj : j ∉ t.ids) (f : LinkedNode D → LinkedNode D) :
    InHeap hash node (heap.modify j f) parent t := by
  apply h.congr
  intro k hk
  rw [getElem?_modify]
  have hne : j ≠ k := fun heq => hj (heq ▸ hk)
  simp [hne]

theorem InHeap.setParent (h : InHeap hash node heap parent t) (hnodup : t.ids.Nodup) (p : Nat) :
    InHeap hash node (heap.modify t.id (setParent p)) (some p) t := by
  cases t with
  | leaf id value =>
    have hid : heap[id]? = _ := h
    show (heap.modify id _)[id]? = _
    rw [getElem?_modify_eq, hid]
    rfl
  | node id left right =>
    obtain ⟨hroot, hleft, hright⟩ := h
    obtain ⟨hnotMem, -⟩ := nodup_cons.mp hnodup
    rw [mem_append, not_or] at hnotMem
    refine ⟨?_, hleft.modify_of_notMem hnotMem.1 _, hright.modify_of_notMem hnotMem.2 _⟩
    show (heap.modify id _)[id]? = _
    rw [getElem?_modify_eq, hroot]
    rfl

/-- What joining does: the new tree is in the heap, and all nodes but the two roots stay. -/
structure Linked (hash : M → D) (node : D → D → M) (heap heap' : List (LinkedNode D))
    (left right : LinkedTree D) : Prop where
  inHeap : InHeap hash node heap' none (.node heap.length left right)
  length : heap'.length = heap.length + 1
  others : ∀ j < heap.length, j ≠ left.id → j ≠ right.id → heap'[j]? = heap[j]?

theorem link_eq {left right : LinkedTree D} (hleft : InHeap hash node heap none left)
    (hright : InHeap hash node heap none right) (hnodup : (left.ids ++ right.ids).Nodup) :
    ∃ heap', link hash node heap left.id right.id = some (heap.length, heap') ∧
      Linked hash node heap heap' left right := by
  obtain ⟨ln, hln, -, hlvalue⟩ := hleft.getElem?_id
  obtain ⟨rn, hrn, -, hrvalue⟩ := hright.getElem?_id
  obtain ⟨hlnodup, hrnodup, hdisjoint⟩ := nodup_append.mp hnodup
  refine ⟨_, by simp only [link, hln, hrn, Option.bind_eq_bind, Option.bind_some]; rfl, ?_, by simp, ?_⟩
  · have hfresh {t : LinkedTree D} (ht : InHeap hash node heap none t) (n : LinkedNode D) :
        InHeap hash node (heap ++ [n]) none t :=
      ht.congr fun j hj => getElem?_append_left (ht.lt_length j hj)
    have hlfirst : left.id ∉ right.ids := fun h => hdisjoint _ left.id_mem_ids _ h rfl
    have hrfirst : right.id ∉ left.ids := fun h => hdisjoint _ h _ right.id_mem_ids rfl
    have hlne : left.id ≠ heap.length := (hleft.lt_length _ left.id_mem_ids).ne
    have hrne : right.id ≠ heap.length := (hright.lt_length _ right.id_mem_ids).ne
    refine ⟨?_, ?_, ?_⟩
    · rw [getElem?_modify_ne _ _ hrne, getElem?_modify_ne _ _ hlne, getElem?_concat_length, hlvalue, hrvalue]
      rfl
    · exact ((hfresh hleft _).setParent hlnodup _).modify_of_notMem hrfirst _
    · exact ((hfresh hright _).modify_of_notMem hlfirst _).setParent hrnodup _
  · intro j hj hl hr
    rw [getElem?_modify_ne _ _ hr.symm, getElem?_modify_ne _ _ hl.symm, getElem?_append_left hj]

/-- A tree was built between two states of the heap: besides its leaves it only has new nodes, and no
other old node changed. -/
structure Built (hash : M → D) (node : D → D → M) (heap heap' : List (LinkedNode D))
    (t : LinkedTree D) : Prop where
  inHeap : InHeap hash node heap' none t
  nodup : t.ids.Nodup
  ids : ∀ j ∈ t.ids, j ∈ t.leafIds ∨ heap.length ≤ j
  length : heap.length ≤ heap'.length
  others : ∀ j < heap.length, j ∉ t.leafIds → heap'[j]? = heap[j]?

theorem Built.leaf {id : Nat} {value : D}
    (h : heap[id]? = some ⟨none, none, none, value⟩) : Built hash node heap heap (.leaf id value) where
  inHeap := h
  nodup := nodup_singleton id
  ids := fun _ hj => Or.inl hj
  length := Nat.le_refl _
  others := fun _ _ _ => rfl

theorem Built.link {heap1 heap2 : List (LinkedNode D)} {left right : LinkedTree D}
    (hleft : Built hash node heap heap1 left) (hright : Built hash node heap1 heap2 right)
    (hleaves : ∀ j ∈ right.leafIds, j ∉ left.ids) :
    ∃ heap3, LinkedTree.link hash node heap2 left.id right.id = some (heap2.length, heap3) ∧
      Built hash node heap heap3 (.node heap2.length left right) := by
  have hlt := hleft.inHeap.lt_length
  have hinHeap : InHeap hash node heap2 none left := hleft.inHeap.congr fun j hj =>
    hright.others j (hlt j hj) fun h => hleaves j h hj
  have hnodup : (left.ids ++ right.ids).Nodup := by
    rw [nodup_append]
    refine ⟨hleft.nodup, hright.nodup, ?_⟩
    rintro j hj _ hj' rfl
    rcases hright.ids j hj' with h | h
    · exact hleaves j h hj
    · exact absurd (hlt j hj) (not_lt.mpr h)
  obtain ⟨heap3, hlink, hlinked⟩ := link_eq hinHeap hright.inHeap hnodup
  have hle : heap.length ≤ heap2.length := hleft.length.trans hright.length
  refine ⟨heap3, hlink, hlinked.inHeap, ?_, ?_, ?_, ?_⟩
  · refine nodup_cons.mpr ⟨fun h => ?_, hnodup⟩
    rcases mem_append.mp h with h | h
    · exact absurd (hinHeap.lt_length _ h) (lt_irrefl _)
    · exact absurd (hright.inHeap.lt_length _ h) (lt_irrefl _)
  · intro j hj
    rcases mem_cons.mp hj with rfl | hj
    · exact Or.inr hle
    · rcases mem_append.mp hj with hj | hj
      · exact (hleft.ids j hj).imp (mem_append_left _) fun h => h
      · exact (hright.ids j hj).imp (mem_append_right _) fun h => hleft.length.trans h
  · rw [hlinked.length]
    omega
  · intro j hj hnotMem
    rw [leafIds, mem_append, not_or] at hnotMem
    have hne {t : LinkedTree D} (hids : ∀ j ∈ t.ids, j ∈ t.leafIds ∨ heap.length ≤ j)
        (h : j ∉ t.leafIds) : j ≠ t.id := by
      rintro rfl
      rcases hids _ t.id_mem_ids with hmem | hge
      · exact h hmem
      · omega
    have hrids : ∀ j ∈ right.ids, j ∈ right.leafIds ∨ heap.length ≤ j := fun j hj =>
      (hright.ids j hj).imp (fun h => h) fun h => hleft.length.trans h
    have hle1 := hleft.length
    rw [hlinked.others j (by omega) (hne hleft.ids hnotMem.1) (hne hrids hnotMem.2),
      hright.others j (by omega) hnotMem.2, hleft.others j hj hnotMem.1]

def setValue (value : D) (n : LinkedNode D) : LinkedNode D := { n with value }

variable (hash node) in
def fixUp : Nat → List (LinkedNode D) → Option Nat → Option (List (LinkedNode D))
  | _, heap, none => some heap
  | 0, _, some _ => none
  | fuel + 1, heap, some id => do
    let n ← heap[id]?
    let left ← heap[← n.left]?
    let right ← heap[← n.right]?
    fixUp fuel (heap.modify id (setValue (hash (node left.value right.value)))) n.parent

@[simp] theorem fixUp_none (fuel : Nat) (heap : List (LinkedNode D)) :
    fixUp hash node fuel heap none = some heap := by
  cases fuel <;> rfl

theorem fixUp_step {id : Nat} {left right : LinkedTree D}
    {value : D} (hid : heap[id]? = some ⟨some left.id, some right.id, parent, value⟩)
    (hleft : InHeap hash node heap (some id) left) (hright : InHeap hash node heap (some id) right)
    (hnodup : (LinkedTree.node id left right).ids.Nodup) :
    ∃ heap', (∀ fuel, fixUp hash node (fuel + 1) heap (some id) = fixUp hash node fuel heap' parent) ∧
      InHeap hash node heap' parent (.node id left right) ∧
      ∀ j ≠ id, heap'[j]? = heap[j]? := by
  obtain ⟨ln, hln, -, hlvalue⟩ := hleft.getElem?_id
  obtain ⟨rn, hrn, -, hrvalue⟩ := hright.getElem?_id
  have hnotMem := (nodup_cons.mp hnodup).1
  rw [mem_append, not_or] at hnotMem
  refine ⟨heap.modify id (setValue (hash (node ln.value rn.value))), fun fuel => ?_, ⟨?_, ?_, ?_⟩,
    fun j hj => getElem?_modify_ne _ _ hj.symm⟩
  · simp only [fixUp, hid, Option.bind_eq_bind, Option.bind_some, hln, hrn]
  · rw [getElem?_modify_eq, hid, hlvalue, hrvalue]
    rfl
  · exact hleft.modify_of_notMem hnotMem.1 _
  · exact hright.modify_of_notMem hnotMem.2 _

def setLeaf (value : D) : LinkedTree D → Nat → LinkedTree D
  | .leaf id _, _ => .leaf id value
  | .node id left right, i =>
    if i < left.erase.size then .node id (left.setLeaf value i) right
    else .node id left (right.setLeaf value (i - left.erase.size))

@[simp] theorem id_setLeaf (value : D) (t : LinkedTree D) (i : Nat) : (t.setLeaf value i).id = t.id := by
  cases t with
  | leaf id old => rfl
  | node id left right =>
    rw [setLeaf]
    split_ifs <;> rfl

@[simp] theorem ids_setLeaf (value : D) (t : LinkedTree D) (i : Nat) : (t.setLeaf value i).ids = t.ids := by
  induction t generalizing i with
  | leaf id old => rfl
  | node id left right ihl ihr =>
    rw [setLeaf]
    split_ifs <;> simp [ids, ihl, ihr]

@[simp] theorem leafIds_setLeaf (value : D) (t : LinkedTree D) (i : Nat) :
    (t.setLeaf value i).leafIds = t.leafIds := by
  induction t generalizing i with
  | leaf id old => rfl
  | node id left right ihl ihr =>
    rw [setLeaf]
    split_ifs <;> simp [leafIds, ihl, ihr]

@[simp] theorem size_setLeaf (value : D) (t : LinkedTree D) (i : Nat) :
    (t.setLeaf value i).erase.size = t.erase.size := by
  rw [← length_leafIds, leafIds_setLeaf, length_leafIds]

theorem leaves_setLeaf (value : D) (h : i < t.erase.size) :
    (t.setLeaf value i).erase.leaves = t.erase.leaves.set i value := by
  induction t generalizing i with
  | leaf id old =>
    obtain rfl := Nat.lt_one_iff.mp h
    rfl
  | node id left right ihl ihr =>
    rw [erase, HashTree.size] at h
    rw [setLeaf]
    split_ifs with hi
    · rw [erase, erase, HashTree.leaves, HashTree.leaves, ihl hi, set_append_left _ _ (by simpa)]
    · rw [erase, erase, HashTree.leaves, HashTree.leaves, ihr (by omega),
        set_append_right _ _ (by simpa using hi), HashTree.length_leaves]

theorem isSplit_setLeaf (value : D) (h : t.erase.IsSplit) (i : Nat) : (t.setLeaf value i).erase.IsSplit := by
  induction t generalizing i with
  | leaf id old => trivial
  | node id left right ihl ihr =>
    obtain ⟨hsplit, hleft, hright⟩ := h
    rw [setLeaf]
    split_ifs
    · exact ⟨by rw [size_setLeaf]; exact hsplit, ihl hleft i, hright⟩
    · exact ⟨by rw [size_setLeaf]; exact hsplit, hleft, ihr hright _⟩

/-- After the value of a leaf changed, recomputing from its parent on gives the tree with that leaf. -/
theorem fixUp_setLeaf (h : InHeap hash node heap parent t)
    (hnodup : t.ids.Nodup) (hself : t.leafIds[i]? = some self) (value : D) :
    ∃ n heap', heap[self]? = some n ∧ InHeap hash node heap' parent (t.setLeaf value i) ∧
      (∀ j ∉ t.ids, heap'[j]? = heap[j]?) ∧
      ∀ fuel, fixUp hash node (fuel + (t.erase.path hash node i).length)
        (heap.modify self (setValue value)) n.parent = fixUp hash node fuel heap' parent := by
  induction t generalizing i parent with
  | leaf id old =>
    obtain rfl : self = id := by
      cases i with
      | zero => exact (Option.some.inj hself).symm
      | succ i => cases hself
    have hid : heap[self]? = _ := h
    refine ⟨_, heap.modify self (setValue value), h, ?_, fun j hj => ?_, fun fuel => rfl⟩
    · show (heap.modify self _)[self]? = _
      rw [getElem?_modify_eq, hid]
      rfl
    · exact getElem?_modify_ne _ _ fun heq => hj (mem_singleton.mpr heq.symm)
  | node id left right ihl ihr =>
    obtain ⟨hroot, hleft, hright⟩ := h
    obtain ⟨hnotMem, happend⟩ := nodup_cons.mp hnodup
    obtain ⟨hlnodup, hrnodup, hdisjoint⟩ := nodup_append.mp happend
    rw [mem_append, not_or] at hnotMem
    simp only [erase, HashTree.path, setLeaf]
    rw [leafIds] at hself
    by_cases hi : i < left.erase.size
    · rw [getElem?_append_left (by rwa [length_leafIds])] at hself
      obtain ⟨n, heap1, hn, hleft1, hothers1, hfix1⟩ := ihl hleft hlnodup hself
      have hright1 : InHeap hash node heap1 (some id) right :=
        hright.congr fun j hj => hothers1 j fun hj' => hdisjoint _ hj' _ hj rfl
      obtain ⟨heap2, hfix2, htree, hothers2⟩ := fixUp_step
        (by rw [hothers1 id hnotMem.1, id_setLeaf]; exact hroot) hleft1 hright1
        (by rw [ids, ids_setLeaf]; exact hnodup)
      rw [if_pos hi, if_pos hi]
      refine ⟨n, heap2, hn, htree, fun j hj => ?_, fun fuel => ?_⟩
      · rw [ids, mem_cons, mem_append, not_or, not_or] at hj
        rw [hothers2 j hj.1, hothers1 j hj.2.1]
      · rw [length_append, length_singleton, Nat.add_comm _ 1, ← Nat.add_assoc, hfix1, hfix2]
    · rw [getElem?_append_right (by rw [length_leafIds]; omega), length_leafIds] at hself
      obtain ⟨n, heap1, hn, hright1, hothers1, hfix1⟩ := ihr hright hrnodup hself
      have hleft1 : InHeap hash node heap1 (some id) left :=
        hleft.congr fun j hj => hothers1 j fun hj' => hdisjoint _ hj _ hj' rfl
      obtain ⟨heap2, hfix2, htree, hothers2⟩ := fixUp_step
        (by rw [hothers1 id hnotMem.2, id_setLeaf]; exact hroot) hleft1 hright1
        (by rw [ids, ids_setLeaf]; exact hnodup)
      rw [if_neg hi, if_neg hi]
      refine ⟨n, heap2, hn, htree, fun j hj => ?_, fun fuel => ?_⟩
      · rw [ids, mem_cons, mem_append, not_or, not_or] at hj
        rw [hothers2 j hj.1, hothers1 j hj.2.2]
      · rw [length_append, length_singleton, Nat.add_comm _ 1, ← Nat.add_assoc, hfix1, hfix2]

end LinkedTree
