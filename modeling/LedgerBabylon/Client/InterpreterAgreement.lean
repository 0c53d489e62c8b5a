import LedgerBabylon.Client.Interpreter
import LedgerBabylon.Handler.MerkleLeafHash

/-!
# Where the interpreters agree

The three clients register the same preimages and trees, except that the Rust client cannot build a tree
without leaves, and answer a request for a preimage in the same way. The other commands differ: the Rust
client fails for a leaf that is not in the tree, wants numbers in their shortest form and ignores what
is behind some requests, and the JavaScript client ignores what is behind a request for a proof.
-/

namespace LedgerBabylon

open List

section

variable {α β : Type} {s : Pending} {treeSize leafIndex elementLen responseLen : Nat}
  {request rest : Bytes} {queue : List Bytes} {python : Python.Interpreter}
  {javaScript : JavaScript.Interpreter} {rust : Rust.ClientCommandInterpreter}

variable {sha256 : Bytes → Digest} {varInt : VarInt}

def Known.preimages : Known → List Bytes
  | .preimage element => [element]
  | .list elements => elements.map (0x00 :: ·)

variable (sha256) in
def preimageEntries (preimages : List Bytes) : List (Bytes × Bytes) :=
  preimages.map fun element => ((sha256 element).bytes, element)

variable (sha256) in
def Known.treeEntry : Known → Option (Bytes × TreeView)
  | .preimage _ => none
  | .list elements => do
    let mt ← Python.MerkleTree.init sha256 (elements.map (merkleComputeElementHash sha256))
    let root ← mt.root
    return (root.bytes, mt.view)

def Known.Buildable (known : List Known) : Prop :=
  ∀ elements, .list elements ∈ known → elements ≠ [] ∧ elements.length ≤ 2 ^ 31

theorem lookup_map_snd {γ : Type} [BEq α] (f : β → γ) (l : List (α × β)) (a : α) :
    (l.map (Prod.map id f)).lookup a = (l.lookup a).map f := by
  induction l with
  | nil => rfl
  | cons p l ih =>
    obtain ⟨k, v⟩ := p
    cases hk : a == k <;> simp [lookup_cons, hk, ih]

theorem lookup_reverse [BEq α] [LawfulBEq α] {l : List (α × β)}
    (h : ∀ a b b', (a, b) ∈ l → (a, b') ∈ l → b = b') (a : α) : l.reverse.lookup a = l.lookup a := by
  have hmem {l : List (α × β)} {b : β} (hb : l.lookup a = some b) : (a, b) ∈ l := by
    obtain ⟨l1, l2, rfl, -⟩ := lookup_eq_some_iff.mp hb
    simp
  cases hb : l.lookup a with
  | none =>
    rw [lookup_eq_none_iff] at hb ⊢
    intro p hp
    exact hb p (mem_reverse.mp hp)
  | some b =>
    cases hb' : l.reverse.lookup a with
    | none =>
      rw [lookup_eq_none_iff] at hb'
      have := hb' (a, b) (mem_reverse.mpr (hmem hb))
      simp at this
    | some b' => rw [h a b' b (mem_reverse.mp (hmem hb')) (hmem hb)]

variable (sha256) in
theorem treeEntry_list {elements : List Bytes} (hne : elements ≠ []) (hle : elements.length ≤ 2 ^ 31) :
    ∃ t : HashTree Digest, t.leaves = elements.map (merkleComputeElementHash sha256) ∧
      (Known.list elements).treeEntry sha256 = some ((t.value sha256 nodeMessage).bytes, .of sha256 t) ∧
      (∃ mt, JavaScript.Merkle.new sha256 (elements.map (merkleComputeElementHash sha256)) = some mt ∧
        mt.getRoot = some (t.value sha256 nodeMessage) ∧ mt.view = .of sha256 t) ∧
      ∃ tree, Rust.MerkleTree.new sha256 (elements.map (merkleComputeElementHash sha256)) = some tree ∧
        tree.rootHash = some (t.value sha256 nodeMessage) ∧ tree.view = .of sha256 t := by
  obtain ⟨t, hleaves, -, ⟨python, hpython, hproot, hpview⟩, hjavaScript, hrust⟩ :=
    @clients_serve_tree sha256 (elements.map (merkleComputeElementHash sha256))
      (by simpa using hne) (by simpa using hle)
  refine ⟨t, hleaves, ?_, hjavaScript, hrust⟩
  simp only [Known.treeEntry, hpython, Option.bind_eq_bind, Option.bind_some, hproot, hpview]
  rfl

section

variable {T : Type} {build : List Digest → Option T} {root : T → Option Digest} {view : T → TreeView}

theorem foldl_addKnownPreimage (elements : List Bytes) (i : Registry T) :
    elements.foldl (fun i el => i.addKnownPreimage sha256 (0x00 :: el)) i =
      { i with preimages :=
          (preimageEntries sha256 (Known.list elements).preimages).reverse ++ i.preimages } := by
  induction elements generalizing i with
  | nil => rfl
  | cons el elements ih =>
    rw [foldl_cons, ih]
    simp [Registry.addKnownPreimage, Known.preimages, preimageEntries]

variable (sha256 view) in
def Registry.Registered (i : Registry T) (known : List Known) : Prop :=
  i.preimages = (preimageEntries sha256 (known.flatMap Known.preimages)).reverse ∧
    i.trees.map (Prod.map id view) = (known.filterMap (Known.treeEntry sha256)).reverse

theorem Registry.add_registered {known : List Known} {k : Known} {i : Registry T}
    (hbuild : ∀ (elements : List Bytes) (entry : Bytes × TreeView), elements ≠ [] →
      elements.length ≤ 2 ^ 31 → (Known.list elements).treeEntry sha256 = some entry →
      ∃ mt mtRoot, build (elements.map (merkleComputeElementHash sha256)) = some mt ∧
        root mt = some mtRoot ∧ (mtRoot.bytes, view mt) = entry)
    (h : i.Registered sha256 view known) (hk : Known.Buildable [k]) :
    ∃ i', Registry.add sha256 build root i k = some i' ∧ i'.Registered sha256 view (known ++ [k]) := by
  obtain ⟨hpreimages, htrees⟩ := h
  cases k with
  | preimage element =>
    refine ⟨_, rfl, ?_, ?_⟩
    · simp [Registry.addKnownPreimage, hpreimages, Known.preimages, preimageEntries]
    · simp [Registry.addKnownPreimage, htrees, Known.treeEntry]
  | list elements =>
    obtain ⟨hne, hle⟩ := hk elements mem_cons_self
    obtain ⟨t, -, hentry, -⟩ := treeEntry_list sha256 hne hle
    obtain ⟨mt, mtRoot, hmt, hroot, heq⟩ := hbuild elements _ hne hle hentry
    refine ⟨⟨(preimageEntries sha256 (Known.list elements).preimages).reverse ++ i.preimages,
      (mtRoot.bytes, mt) :: i.trees⟩, ?_, ?_, ?_⟩
    · simp only [Registry.add, Registry.addKnownList, foldl_addKnownPreimage, hmt, hroot,
        Option.bind_eq_bind, Option.bind_some]
      rfl
    · simp [hpreimages, preimageEntries]
    · simp [htrees, hentry, ← heq]

end

theorem Rust.foldl_addKnownPreimage (elements : List Bytes) (i : Rust.ClientCommandInterpreter) :
    elements.foldl (fun i el => i.addKnownPreimage sha256 (0x00 :: el)) i =
      { i with knownPreimages :=
          i.knownPreimages ++ preimageEntries sha256 (Known.list elements).preimages } := by
  induction elements generalizing i with
  | nil => simp [Known.preimages, preimageEntries]
  | cons el elements ih =>
    rw [foldl_cons, ih]
    simp [ClientCommandInterpreter.addKnownPreimage, Known.preimages, preimageEntries]

def Rust.MerkleTree.entry (tree : Rust.MerkleTree) : Option Bytes × TreeView :=
  (tree.rootHash.map Digest.bytes, tree.view)

variable (sha256) in
def Rust.ClientCommandInterpreter.Registered (i : Rust.ClientCommandInterpreter) (known : List Known) :
    Prop :=
  i.knownPreimages = preimageEntries sha256 (known.flatMap Known.preimages) ∧
    i.trees.map Rust.MerkleTree.entry = (known.filterMap (Known.treeEntry sha256)).map (Prod.map some id)

theorem Rust.add_registered {known : List Known} {k : Known} {i : Rust.ClientCommandInterpreter}
    (h : i.Registered sha256 known) (hk : Known.Buildable [k]) :
    ∃ i', Rust.ClientCommandInterpreter.add sha256 i k = some i' ∧ i'.Registered sha256 (known ++ [k]) := by
  obtain ⟨hpreimages, htrees⟩ := h
  cases k with
  | preimage element =>
    refine ⟨_, rfl, ?_, ?_⟩
    · simp [ClientCommandInterpreter.addKnownPreimage, hpreimages, Known.preimages, preimageEntries]
    · simp [ClientCommandInterpreter.addKnownPreimage, htrees, Known.treeEntry]
  | list elements =>
    obtain ⟨hne, hle⟩ := hk elements mem_cons_self
    obtain ⟨t, -, hentry, -, tree, htree, hroot, hview⟩ := treeEntry_list sha256 hne hle
    refine ⟨⟨i.knownPreimages ++ preimageEntries sha256 (Known.list elements).preimages,
      i.trees ++ [tree]⟩, ?_, ?_, ?_⟩
    · simp only [ClientCommandInterpreter.add, ClientCommandInterpreter.addKnownList,
        Rust.foldl_addKnownPreimage, htree, Option.bind_eq_bind, Option.bind_some]
      rfl
    · simp [hpreimages, preimageEntries]
    · simp [htrees, hentry, Rust.MerkleTree.entry, hroot, hview]

theorem exists_foldlM_registered {I : Type} {add : I → Known → Option I} {R : I → List Known → Prop}
    {known done : List Known} {i : I} (h : R i done) (hbuildable : Known.Buildable known)
    (hstep : ∀ {i done k}, R i done → Known.Buildable [k] → ∃ i', add i k = some i' ∧ R i' (done ++ [k])) :
    ∃ i', known.foldlM add i = some i' ∧ R i' (done ++ known) := by
  induction known generalizing i done with
  | nil => exact ⟨i, rfl, by rwa [append_nil]⟩
  | cons k known ih =>
    obtain ⟨i1, hadd, h1⟩ := hstep h fun elements hmem =>
      hbuildable elements (mem_singleton.mp hmem ▸ mem_cons_self)
    obtain ⟨i', hfold, h'⟩ := ih h1 fun elements hmem => hbuildable elements (mem_cons_of_mem _ hmem)
    rw [append_assoc] at h'
    rw [foldlM_cons, hadd]
    exact ⟨i', hfold, h'⟩

theorem Rust.find?_eq_lookup {trees : List Rust.MerkleTree} {entries : List (Bytes × TreeView)}
    (h : trees.map Rust.MerkleTree.entry = entries.map (Prod.map some id)) (root : Bytes) :
    (trees.find? fun tree => tree.rootHash.any fun hash => hash.bytes = root).map (·.view) =
      entries.lookup root := by
  induction trees generalizing entries with
  | nil =>
    obtain rfl : entries = [] := by simpa using h.symm
    rfl
  | cons tree trees ih =>
    cases entries with
    | nil => simp at h
    | cons entry entries =>
      obtain ⟨key, v⟩ := entry
      obtain ⟨hhead, htail⟩ := cons.inj h
      obtain ⟨hkey, hview⟩ := Prod.mk.inj hhead
      obtain ⟨hash, hhash, rfl⟩ := Option.map_eq_some_iff.mp hkey
      rw [find?_cons, lookup_cons, hhash, ← ih htail]
      by_cases heq : hash.bytes = root
      · have hview' : tree.view = v := hview
        simp [heq, hview']
      · have hne : (root == hash.bytes) = false := by
          rw [beq_eq_false_iff_ne]
          exact fun h => heq h.symm
        simp [heq, hne]

structure DistinctHashes (sha256 : Bytes → Digest) (known : List Known) : Prop where
  preimages : ∀ e ∈ known.flatMap Known.preimages, ∀ e' ∈ known.flatMap Known.preimages,
    sha256 e = sha256 e' → e = e'
  trees : ∀ k ∈ known, ∀ k' ∈ known, ∀ root v v', k.treeEntry sha256 = some (root, v) →
    k'.treeEntry sha256 = some (root, v') → k.preimages = k'.preimages

theorem DistinctHashes.preimageEntries_unique {known : List Known} (h : DistinctHashes sha256 known) :
    ∀ a b b', (a, b) ∈ preimageEntries sha256 (known.flatMap Known.preimages) →
      (a, b') ∈ preimageEntries sha256 (known.flatMap Known.preimages) → b = b' := by
  intro a b b' hb hb'
  obtain ⟨e, he, heq⟩ := mem_map.mp hb
  obtain ⟨e', he', heq'⟩ := mem_map.mp hb'
  obtain ⟨rfl, rfl⟩ := Prod.mk.inj heq
  obtain ⟨hhash, rfl⟩ := Prod.mk.inj heq'
  exact h.preimages e he e' he' ((Digest.mk.injEq ..).mpr hhash.symm)

theorem DistinctHashes.treeEntries_unique {known : List Known} (h : DistinctHashes sha256 known) :
    ∀ a b b', (a, b) ∈ known.filterMap (Known.treeEntry sha256) →
      (a, b') ∈ known.filterMap (Known.treeEntry sha256) → b = b' := by
  intro a b b' hb hb'
  obtain ⟨k, hk, hentry⟩ := mem_filterMap.mp hb
  obtain ⟨k', hk', hentry'⟩ := mem_filterMap.mp hb'
  have hsame := h.trees k hk k' hk' a b b' hentry hentry'
  cases k with
  | preimage element => cases hentry
  | list elements =>
    cases k' with
    | preimage element => cases hentry'
    | list elements' =>
      have heq : elements = elements' := map_injective_iff.mpr cons_injective hsame
      rw [heq, hentry'] at hentry
      exact (Prod.mk.inj (Option.some.inj hentry)).2.symm

structure SameKnowledge (sha256 : Bytes → Digest) (python : Python.Interpreter)
    (javaScript : JavaScript.Interpreter) (rust : Rust.ClientCommandInterpreter) : Prop where
  preimage_javaScript : javaScript.preimage? = python.preimage?
  preimage_rust : rust.preimage? = python.preimage?
  tree_javaScript : javaScript.tree? JavaScript.Merkle.view = python.tree? Python.MerkleTree.view
  tree_rust : rust.tree? = python.tree? Python.MerkleTree.view
  tree_of : ∀ root mt, python.tree? Python.MerkleTree.view root = some mt →
    ∃ t : HashTree Digest, t.size ≤ 2 ^ 31 ∧ mt = .of sha256 t

theorem sameKnowledge {known : List Known} (hbuildable : Known.Buildable known)
    (hdistinct : DistinctHashes sha256 known) :
    ∃ python javaScript rust, Python.Interpreter.new sha256 known = some python ∧
      JavaScript.Interpreter.new sha256 known = some javaScript ∧
      Rust.ClientCommandInterpreter.new sha256 known = some rust ∧
      SameKnowledge sha256 python javaScript rust := by
  have hnil {T : Type} (view : T → TreeView) : Registry.Registered sha256 view ⟨[], []⟩ [] := ⟨rfl, rfl⟩
  obtain ⟨python, hpython, hppreimages, hptrees⟩ :=
    exists_foldlM_registered (hnil Python.MerkleTree.view) hbuildable (Registry.add_registered (by
      intro elements entry _ _ hentry
      simp only [Known.treeEntry, Option.bind_eq_bind, Option.bind_eq_some_iff] at hentry
      obtain ⟨mt, hmt, root, hroot, heq⟩ := hentry
      exact ⟨mt, root, hmt, hroot, Option.some.inj heq⟩))
  obtain ⟨javaScript, hjavaScript, hjpreimages, hjtrees⟩ :=
    exists_foldlM_registered (hnil JavaScript.Merkle.view) hbuildable (Registry.add_registered (by
      intro elements entry hne hle hentry
      obtain ⟨t, -, hentry', ⟨mt, hmt, hroot, hview⟩, -⟩ := treeEntry_list sha256 hne hle
      refine ⟨mt, _, hmt, hroot, ?_⟩
      rw [hview]
      exact Option.some.inj (hentry'.symm.trans hentry)))
  have hrustNil : Rust.ClientCommandInterpreter.Registered sha256 ⟨[], []⟩ [] := ⟨rfl, rfl⟩
  obtain ⟨rust, hrust, hrpreimages, hrtrees⟩ :=
    exists_foldlM_registered hrustNil hbuildable Rust.add_registered
  rw [nil_append] at hppreimages hptrees hjpreimages hjtrees hrpreimages hrtrees
  have hpreimage := hdistinct.preimageEntries_unique
  have htree := hdistinct.treeEntries_unique
  have hptree (root : Bytes) : python.tree? Python.MerkleTree.view root =
      (known.filterMap (Known.treeEntry sha256)).lookup root := by
    rw [Registry.tree?, ← lookup_map_snd, hptrees, lookup_reverse htree]
  refine ⟨python, javaScript, rust, hpython, hjavaScript, hrust, ?_, ?_, ?_, ?_, ?_⟩
  · funext hash
    rw [Registry.preimage?, Registry.preimage?, hppreimages, hjpreimages]
  · funext hash
    rw [Registry.preimage?, Rust.ClientCommandInterpreter.preimage?, hppreimages, hrpreimages,
      lookup_reverse hpreimage]
  · funext root
    rw [hptree, Registry.tree?, ← lookup_map_snd, hjtrees, lookup_reverse htree]
  · funext root
    rw [hptree]
    exact Rust.find?_eq_lookup hrtrees root
  · intro root mt hmt
    rw [hptree] at hmt
    obtain ⟨l1, l2, heq, -⟩ := lookup_eq_some_iff.mp hmt
    have hmem : (root, mt) ∈ known.filterMap (Known.treeEntry sha256) := by
      rw [heq]
      simp
    obtain ⟨k, hk, hentry⟩ := mem_filterMap.mp hmem
    cases k with
    | preimage element => cases hentry
    | list elements =>
      obtain ⟨hne, hle⟩ := hbuildable elements hk
      obtain ⟨t, hleaves, hentry', -⟩ := treeEntry_list sha256 hne hle
      rw [hentry'] at hentry
      refine ⟨t, ?_, (Prod.mk.inj (Option.some.inj hentry)).2.symm⟩
      rw [← HashTree.length_leaves, hleaves, length_map]
      exact hle

section

variable {preimage? : Bytes → Option Bytes} {tree? : Bytes → Option TreeView}

theorem getPreimage_rust (s : Pending) (request : Bytes) :
    Rust.getPreimageCommand varInt preimage? s request = Python.getPreimage preimage? s request := by
  cases request with
  | nil => rfl
  | cons b data =>
    have hfirst : readExact 1 (b :: data) = some ([b], data) := readExact_append (a := [b]) rfl data
    simp only [Rust.getPreimageCommand, Python.getPreimage, varInt.encode_eq, hfirst, Option.bind_eq_bind,
      Option.bind_some, length_cons, head?_cons, drop_one, tail_cons]
    by_cases hb : b = 0
    · subst hb
      simp only [ne_eq, not_true_eq_false, or_false, if_true]
      by_cases hshort : data.length < 32
      · rw [if_pos (by omega), readExact, if_pos hshort]
        rfl
      · simp only [readExact, if_neg hshort, Option.bind_some, drop_eq_nil_iff]
        by_cases hlen : data.length = 32
        · rw [if_neg (by omega), if_pos (by omega), take_of_length_le (by omega)]
        · rw [if_pos (by omega), if_neg (by omega)]
    · rw [if_pos (Or.inr (by simpa using hb)), if_neg (by simpa using hb)]

theorem getPreimage_javaScript (varInt : VarInt) (s : Pending) (request : Bytes) :
    JavaScript.getPreimage preimage? s request = Rust.getPreimageCommand varInt preimage? s request := by
  unfold JavaScript.getPreimage Rust.getPreimageCommand
  rw [varInt.encode_eq]
  by_cases hlen : request.length ≠ 33
  · rw [if_pos hlen, if_pos (Or.inl hlen)]
  · by_cases hhead : request.head? ≠ some 0
    · rw [if_neg hlen, if_pos hhead, if_pos (Or.inr hhead)]
    · rw [if_neg hlen, if_neg hhead, if_neg (not_or.mpr ⟨hlen, hhead⟩)]

variable (tree?) in
def proofAnswer (s : Pending) (root : Bytes) (treeSize leafIndex : Nat) : Option (Bytes × Pending) := do
  let mt ← tree? root
  if leafIndex ≥ treeSize ∨ mt.size ≠ treeSize ∨ s.queue ≠ [] then none
  else
    let proof ← mt.prove leafIndex
    let leaf ← mt.get leafIndex
    return leafProofResponse s leaf proof

def Servable (tree? : Bytes → Option TreeView) (s : Pending) (root : Bytes)
    (treeSize leafIndex : Nat) : Prop :=
  ∃ mt, tree? root = some mt ∧ leafIndex < treeSize ∧ mt.size = treeSize ∧ s.queue = []

variable {root : Bytes}

theorem proofAnswer_eq_none_iff
    (htree : ∀ root mt, tree? root = some mt → ∃ t : HashTree Digest, t.size ≤ 2 ^ 31 ∧ mt = .of sha256 t)
    :
    proofAnswer tree? s root treeSize leafIndex = none ↔ ¬Servable tree? s root treeSize leafIndex := by
  unfold proofAnswer Servable
  cases hmt : tree? root with
  | none => simp
  | some mt =>
    obtain ⟨t, -, rfl⟩ := htree root mt hmt
    simp only [Option.bind_eq_bind, Option.bind_some, Option.some.injEq, exists_eq_left']
    by_cases hbad : leafIndex ≥ treeSize ∨ (TreeView.of sha256 t).size ≠ treeSize ∨ s.queue ≠ []
    · rw [if_pos hbad]
      simp only [true_iff, not_and]
      intro hlt hsize hqueue
      rcases hbad with h | h | h
      · omega
      · exact h hsize
      · exact h hqueue
    · rw [if_neg hbad]
      simp only [not_or, not_not, not_le, ge_iff_le] at hbad
      obtain ⟨hlt, hsize, hqueue⟩ := hbad
      have hindex : leafIndex < t.size := by
        rw [← hsize] at hlt
        exact hlt
      simp [TreeView.of, hindex, hqueue, ← hsize]

theorem getMerkleLeafProof_python (h : readProofRequest request = some (root, treeSize, leafIndex, rest)) :
    Python.getMerkleLeafProof tree? s request =
      if rest = [] then proofAnswer tree? s root treeSize leafIndex else none := by
  simp only [Python.getMerkleLeafProof, h, Option.bind_eq_bind, Option.bind_some, proofAnswer]

theorem readVarint_bounds {s : Bytes} {value : Nat} (h : readVarint s = some (value, rest)) :
    rest.length < s.length ∧ value < 2 ^ 64 := by
  have hlong (n : Nat) (hn : n ≤ 8) {t : Bytes}
      (ht : (readExact n t).map (fun p => (Endian.leNat p.1, p.2)) = some (value, rest)) :
      rest.length ≤ t.length ∧ value < 2 ^ 64 := by
    obtain ⟨⟨a, r⟩, hexact, heq⟩ := Option.map_eq_some_iff.mp ht
    cases heq
    obtain ⟨rfl, rfl⟩ := readExact_eq_some hexact
    exact ⟨by simp, (Endian.leNat_lt a).trans_le (Nat.pow_le_pow_right (by decide) hn)⟩
  cases s with
  | nil => cases h
  | cons b t =>
    rw [length_cons, Nat.lt_succ_iff]
    simp only [readVarint] at h
    split_ifs at h
    · exact hlong 2 (by decide) h
    · exact hlong 4 (by decide) h
    · exact hlong 8 (by decide) h
    · cases h
      exact ⟨Nat.le_refl _, b.toNat_lt.trans (by decide)⟩

theorem readProofRequest_bounds (h : readProofRequest request = some (root, treeSize, leafIndex, rest)) :
    root.length = 32 ∧ treeSize < 2 ^ 64 ∧ leafIndex < 2 ^ 64 ∧ 34 ≤ request.length := by
  simp only [readProofRequest, Option.bind_eq_bind, Option.bind_eq_some_iff, Option.pure_def,
    Option.some.injEq, Prod.mk.injEq] at h
  obtain ⟨⟨r, req⟩, hroot, ⟨size, req1⟩, hsize, ⟨index, req2⟩, hindex, rfl, rfl, rfl, -⟩ := h
  obtain ⟨rfl, hlen⟩ := readExact_eq_some hroot
  obtain ⟨hrest, hsizeLt⟩ := readVarint_bounds hsize
  obtain ⟨hrest', hindexLt⟩ := readVarint_bounds hindex
  refine ⟨hlen, hsizeLt, hindexLt, ?_⟩
  dsimp only at hrest hrest' ⊢
  rw [length_append]
  omega

theorem getMerkleLeafProof_javaScript
    (htree : ∀ root mt, tree? root = some mt → ∃ t : HashTree Digest, t.size ≤ 2 ^ 31 ∧ mt = .of sha256 t)
    (h : readProofRequest request = some (root, treeSize, leafIndex, rest)) :
    JavaScript.getMerkleLeafProof tree? s request = proofAnswer tree? s root treeSize leafIndex := by
  obtain ⟨-, -, -, hlen⟩ := readProofRequest_bounds h
  simp only [JavaScript.getMerkleLeafProof, h, Option.bind_eq_bind, Option.bind_some, if_neg (not_lt.mpr hlen)]
  split_ifs with hlarge
  · -- numbers that large are not those of a known tree
    symm
    rw [proofAnswer_eq_none_iff htree]
    rintro ⟨mt, hmt, hlt, hsize, -⟩
    obtain ⟨t, hle, rfl⟩ := htree root mt hmt
    have hsize' : t.size = treeSize := hsize
    unfold JavaScript.maxSafeInteger at hlarge
    omega
  · rfl

def proofRequest (root : Bytes) (treeSize leafIndex : Nat) : Bytes :=
  root ++ varintWrite treeSize ++ varintWrite leafIndex

theorem readProofRequest_proofRequest
    (hroot : root.length = 32) (hsize : treeSize < 2 ^ 64) (hindex : leafIndex < 2 ^ 64) :
    readProofRequest (proofRequest root treeSize leafIndex) = some (root, treeSize, leafIndex, []) := by
  have hlast := readVarint_varintWrite hindex []
  rw [append_nil] at hlast
  simp only [readProofRequest, proofRequest, append_assoc, readExact_append hroot,
    readVarint_varintWrite hsize, hlast, Option.bind_eq_bind, Option.bind_some]
  rfl

theorem getMerkleLeafProof_rust_eq_some {r : Bytes × Pending}
    (h : Rust.getMerkleLeafProof varInt tree? s request = some r) :
    ∃ root treeSize leafIndex, request = proofRequest root treeSize leafIndex ∧
      readProofRequest request = some (root, treeSize, leafIndex, []) := by
  unfold Rust.getMerkleLeafProof at h
  split_ifs at h with hqueue hlen
  obtain ⟨⟨treeSize, rest⟩, hsize, h1⟩ := Option.bind_eq_some_iff.mp h
  obtain ⟨⟨leafIndex, rest'⟩, hindex, h2⟩ := Option.bind_eq_some_iff.mp h1
  simp only at h2
  split_ifs at h2 with hrest
  rw [not_not] at hrest
  obtain rfl : rest' = [] := hrest
  obtain ⟨hdrop, hsizeLt⟩ := varInt.eq_of_decode hsize
  obtain ⟨rfl, hindexLt⟩ := varInt.eq_of_decode hindex
  have hrequest : request = proofRequest (request.take 32) treeSize leafIndex := by
    rw [proofRequest, append_assoc]
    rw [append_nil] at hdrop
    rw [← hdrop, take_append_drop]
  refine ⟨request.take 32, treeSize, leafIndex, hrequest, ?_⟩
  have hroot : (request.take 32).length = 32 := by
    rw [length_take]
    omega
  exact (congrArg readProofRequest hrequest).trans (readProofRequest_proofRequest hroot hsizeLt hindexLt)

/-- The Rust client answers a request only in the form in which it is written. -/
theorem getMerkleLeafProof_rust (h : readProofRequest request = some (root, treeSize, leafIndex, rest)) :
    Rust.getMerkleLeafProof varInt tree? s request =
      if request = proofRequest root treeSize leafIndex then proofAnswer tree? s root treeSize leafIndex
      else none := by
  split_ifs with hcanonical
  · subst hcanonical
    obtain ⟨hroot, hsize, hindex, hlen⟩ := readProofRequest_bounds h
    have hlast := varInt.decode_varintWrite hindex []
    rw [append_nil] at hlast
    unfold Rust.getMerkleLeafProof proofAnswer
    rw [if_neg (not_lt.mpr hlen)]
    simp only [proofRequest, append_assoc, drop_left' hroot, take_left' hroot,
      varInt.decode_varintWrite hsize, hlast, Option.bind_eq_bind, Option.bind_some]
    by_cases hqueue : s.queue = []
    · simp only [hqueue, ne_eq, not_true_eq_false, if_false, or_false, eq_comm (a := treeSize)]
    · rw [if_pos hqueue]
      cases tree? root <;> simp [hqueue]
  · rw [Option.eq_none_iff_forall_ne_some]
    intro r hr
    obtain ⟨root', treeSize', leafIndex', hrequest, hread⟩ := getMerkleLeafProof_rust_eq_some hr
    rw [h] at hread
    cases hread
    exact hcanonical hrequest

def CanonicalProofRequest (tree? : Bytes → Option TreeView) (s : Pending) (request : Bytes) : Prop :=
  ∀ root treeSize leafIndex rest, readProofRequest request = some (root, treeSize, leafIndex, rest) →
    Servable tree? s root treeSize leafIndex → request = proofRequest root treeSize leafIndex

theorem getMerkleLeafProof_agree_iff
    (htree : ∀ root mt, tree? root = some mt → ∃ t : HashTree Digest, t.size ≤ 2 ^ 31 ∧ mt = .of sha256 t)
    (s : Pending) (request : Bytes) :
    (JavaScript.getMerkleLeafProof tree? s request = Python.getMerkleLeafProof tree? s request ∧
        Rust.getMerkleLeafProof varInt tree? s request = Python.getMerkleLeafProof tree? s request) ↔
      CanonicalProofRequest tree? s request := by
  cases hread : readProofRequest request with
  | none =>
    -- nobody reads the request
    have hpython : Python.getMerkleLeafProof tree? s request = none := by
      simp [Python.getMerkleLeafProof, hread]
    have hjavaScript : JavaScript.getMerkleLeafProof tree? s request = none := by
      simp [JavaScript.getMerkleLeafProof, hread]
    have hrust : Rust.getMerkleLeafProof varInt tree? s request = none := by
      rw [Option.eq_none_iff_forall_ne_some]
      intro r hr
      obtain ⟨_, _, _, -, hsome⟩ := getMerkleLeafProof_rust_eq_some hr
      rw [hread] at hsome
      cases hsome
    rw [hpython, hjavaScript, hrust]
    simp [CanonicalProofRequest, hread]
  | some read =>
    obtain ⟨root, treeSize, leafIndex, rest⟩ := read
    have hcanonical : CanonicalProofRequest tree? s request ↔
        (Servable tree? s root treeSize leafIndex → request = proofRequest root treeSize leafIndex) := by
      constructor
      · intro h
        exact h root treeSize leafIndex rest hread
      · intro h root' treeSize' leafIndex' rest' hread'
        rw [hread] at hread'
        cases hread'
        exact h
    rw [hcanonical, getMerkleLeafProof_javaScript htree hread, getMerkleLeafProof_python hread,
      getMerkleLeafProof_rust hread]
    by_cases hservable : Servable tree? s root treeSize leafIndex
    · have hsome : proofAnswer tree? s root treeSize leafIndex ≠ none := fun h =>
        (proofAnswer_eq_none_iff htree).mp h hservable
      by_cases hrequest : request = proofRequest root treeSize leafIndex
      · have hrest : rest = [] := by
          subst hrequest
          obtain ⟨hroot, hsize, hindex, -⟩ := readProofRequest_bounds hread
          rw [readProofRequest_proofRequest hroot hsize hindex] at hread
          cases hread
          rfl
        rw [if_pos hrequest, if_pos hrest]
        exact iff_of_true ⟨rfl, rfl⟩ fun _ => hrequest
      · rw [if_neg hrequest]
        refine iff_of_false ?_ fun h => hrequest (h hservable)
        rintro ⟨hjavaScript, hrust⟩
        exact hsome (hjavaScript.trans hrust.symm)
    · rw [(proofAnswer_eq_none_iff htree).mpr hservable]
      simp [hservable]

theorem getMerkleLeafIndex_javaScript (s : Pending) (request : Bytes) :
    JavaScript.getMerkleLeafIndex tree? s request = Python.getMerkleLeafIndex tree? s request := by
  unfold JavaScript.getMerkleLeafIndex Python.getMerkleLeafIndex
  by_cases hshort : request.length < 32
  · rw [if_pos (by omega), readExact, if_pos hshort]
    rfl
  · have hlen : (request.drop 32).length = request.length - 32 := length_drop
    simp only [readExact, if_neg hshort, Option.bind_eq_bind, Option.bind_some, hlen, drop_drop]
    by_cases hshort' : request.length < 64
    · rw [if_pos (by omega), if_pos (by omega)]
      rfl
    · rw [if_neg (show ¬request.length - 32 < 32 by omega), Option.bind_some]
      simp only [drop_eq_nil_iff]
      by_cases hexact : request.length = 64
      · have htake : (request.drop 32).take 32 = request.drop 32 := take_of_length_le (by rw [hlen]; omega)
        rw [if_neg (by omega), if_pos (by omega), htake]
      · rw [if_pos (by omega), if_neg (by omega)]

/-- A request for an index is as long as it has to be exactly if the leaf is in the tree. -/
def CanonicalIndexRequest (tree? : Bytes → Option TreeView) (request : Bytes) : Prop :=
  ∀ mt, 64 ≤ request.length → tree? (request.take 32) = some mt →
    (request.length = 64 ↔ (mt.leafIndex ((request.drop 32).take 32)).isSome)

theorem getMerkleLeafIndex_agree_iff (s : Pending) (request : Bytes) :
    (JavaScript.getMerkleLeafIndex tree? s request = Python.getMerkleLeafIndex tree? s request ∧
        Rust.getMerkleLeafIndex varInt tree? s request = Python.getMerkleLeafIndex tree? s request) ↔
      CanonicalIndexRequest tree? request := by
  rw [← getMerkleLeafIndex_javaScript]
  simp only [true_and, JavaScript.getMerkleLeafIndex, Rust.getMerkleLeafIndex, varInt.encode_eq,
    CanonicalIndexRequest]
  by_cases hshort : request.length < 64
  · rw [if_pos hshort, if_pos (by omega)]
    simp [not_le.mpr hshort]
  · rw [if_neg hshort]
    have hlong : 64 ≤ request.length := not_lt.mp hshort
    cases hmt : tree? (request.take 32) with
    | none => simp
    | some mt =>
      by_cases hexact : request.length = 64
      · have htake : (request.drop 32).take 32 = request.drop 32 :=
          take_of_length_le (by rw [length_drop]; omega)
        rw [if_neg (by omega), htake]
        cases hfind : mt.leafIndex (request.drop 32) <;> simp [hexact, hfind]
      · rw [if_pos (by omega)]
        cases hfind : mt.leafIndex ((request.drop 32).take 32) <;> simp [hexact, hlong, hfind]

/-! The loops over the queue take as many elements as fit. -/

def maxElements (elementLen queueLen : Nat) : Nat := if elementLen = 0 then queueLen else 253 / elementLen

theorem div_step (hpos : 0 < elementLen) (hfits : responseLen + elementLen ≤ 253) :
    (253 - responseLen) / elementLen = (253 - (responseLen + elementLen)) / elementLen + 1 := by
  rw [Nat.div_eq_sub_div hpos (by omega), Nat.sub_sub]

theorem moreElements_of_pos (hpos : 0 < elementLen) (hqueue : ∀ e ∈ queue, e.length = elementLen) :
    Python.popElements elementLen responseLen queue =
        (queue.take ((253 - responseLen) / elementLen), queue.drop ((253 - responseLen) / elementLen)) ∧
      Rust.addElements elementLen responseLen queue = queue.take ((253 - responseLen) / elementLen) := by
  induction queue generalizing responseLen with
  | nil => simp [Python.popElements, Rust.addElements]
  | cons e queue ih =>
    have hrest := fun e' he' => hqueue e' (mem_cons_of_mem _ he')
    rw [Python.popElements, Rust.addElements, hqueue e mem_cons_self]
    split_ifs with hfits
    · rw [(ih hrest).1, (ih hrest).2, div_step hpos hfits]
      exact ⟨rfl, rfl⟩
    · -- nothing more fits later either
      rw [(ih hrest).2, Nat.div_eq_of_lt (by omega)]
      exact ⟨rfl, rfl⟩

theorem moreElements_zero (hqueue : ∀ e ∈ queue, e.length = 0) :
    Python.popElements 0 0 queue = (queue, []) ∧ Rust.addElements 0 0 queue = queue := by
  induction queue with
  | nil => exact ⟨rfl, rfl⟩
  | cons e queue ih =>
    obtain ⟨hpop, hadd⟩ := ih fun e' he' => hqueue e' (mem_cons_of_mem _ he')
    rw [Python.popElements, Rust.addElements, hqueue e mem_cons_self, hpop, hadd]
    exact ⟨rfl, rfl⟩

theorem moreElements_eq {el : Bytes} (hqueue : ∀ e ∈ el :: queue, e.length = el.length) :
    Python.popElements el.length 0 (el :: queue) =
        ((el :: queue).take (maxElements el.length (el :: queue).length),
          (el :: queue).drop (maxElements el.length (el :: queue).length)) ∧
      Rust.addElements el.length 0 (el :: queue) =
        (el :: queue).take (maxElements el.length (el :: queue).length) := by
  unfold maxElements
  by_cases hzero : el.length = 0
  · rw [hzero] at hqueue ⊢
    rw [if_pos rfl, take_length, drop_length]
    exact moreElements_zero hqueue
  · rw [if_neg hzero]
    exact moreElements_of_pos (Nat.pos_of_ne_zero hzero) hqueue

/-- A request for more elements is empty, or the queue is empty or has elements of different lengths. -/
def CanonicalMoreRequest (s : Pending) (request : Bytes) : Prop :=
  request = [] ∨ ∀ el ∈ s.queue.head?, ∃ e ∈ s.queue, e.length ≠ el.length

theorem getMoreElements_agree_iff (s : Pending) (request : Bytes) :
    (JavaScript.getMoreElements s request = Python.getMoreElements s request ∧
        Rust.getMoreElements s = Python.getMoreElements s request) ↔ CanonicalMoreRequest s request := by
  unfold JavaScript.getMoreElements Python.getMoreElements Rust.getMoreElements CanonicalMoreRequest
  cases hqueue : s.queue with
  | nil => simp
  | cons el queue =>
    simp only [head?_cons, Option.mem_some_iff, forall_eq']
    by_cases hmixed : (el :: queue).any fun e => e.length ≠ el.length
    · have hexists : ∃ e ∈ el :: queue, e.length ≠ el.length := by simpa using hmixed
      simp only [hmixed, if_true, ite_self, true_and, hexists, or_true]
    · have hsame : ∀ e ∈ el :: queue, e.length = el.length := by simpa using hmixed
      have hnot : ¬∃ e ∈ el :: queue, e.length ≠ el.length := by
        rintro ⟨e, he, hne⟩
        exact hne (hsame e he)
      obtain ⟨hpop, hadd⟩ := moreElements_eq hsame
      simp only [hmixed, Bool.false_eq_true, if_false, hpop, hadd, hnot, or_false]
      by_cases hrequest : request = []
      · simp only [hrequest, ne_eq, not_true_eq_false, if_false, Option.some.injEq, iff_true]
        have htake (l : List Bytes) (n : Nat) : l.take (min n l.length) = l.take n ∧
            l.drop (min n l.length) = l.drop n ∧ l.drop (l.take n).length = l.drop n := by
          rw [length_take]
          rcases Nat.le_total n l.length with h | h
          · simp [Nat.min_eq_left h]
          · simp [Nat.min_eq_right h, take_of_length_le h, drop_of_length_le h]
        obtain ⟨h1, h2, h3⟩ := htake (el :: queue) (maxElements el.length (el :: queue).length)
        unfold maxElements at h1 h2 h3 ⊢
        rw [h1, h2, h3]
        exact ⟨rfl, rfl⟩
      · simp [hrequest]

def CanonicalRequest (tree? : Bytes → Option TreeView) (s : Pending) : Bytes → Prop
  | [] => True
  | code :: request =>
    (code = CCMD_GET_MERKLE_LEAF_PROOF → CanonicalProofRequest tree? s request) ∧
    (code = CCMD_GET_MERKLE_LEAF_INDEX → CanonicalIndexRequest tree? request) ∧
    (code = CCMD_GET_MORE_ELEMENTS → CanonicalMoreRequest s request)

end

theorem execute_agree_iff (h : SameKnowledge sha256 python javaScript rust) (s : Pending) (request : Bytes) :
    (javaScript.execute s request = python.execute s request ∧
        rust.execute varInt s request = python.execute s request) ↔
      CanonicalRequest (python.tree? Python.MerkleTree.view) s request := by
  rw [JavaScript.Interpreter.execute, Python.Interpreter.execute, Rust.ClientCommandInterpreter.execute,
    h.preimage_javaScript, h.preimage_rust, h.tree_javaScript, h.tree_rust]
  cases request with
  | nil => simp [dispatch, CanonicalRequest]
  | cons code request =>
    simp only [dispatch, CanonicalRequest]
    by_cases hyield : code = CCMD_YIELD
    · subst hyield
      simp [CCMD_YIELD, CCMD_GET_MERKLE_LEAF_PROOF, CCMD_GET_MERKLE_LEAF_INDEX, CCMD_GET_MORE_ELEMENTS]
    · by_cases hpreimage : code = CCMD_GET_PREIMAGE
      · subst hpreimage
        simp [CCMD_YIELD, CCMD_GET_PREIMAGE, CCMD_GET_MERKLE_LEAF_PROOF, CCMD_GET_MERKLE_LEAF_INDEX,
          CCMD_GET_MORE_ELEMENTS, getPreimage_rust, getPreimage_javaScript varInt]
      · simp only [if_neg hyield, if_neg hpreimage]
        by_cases hproof : code = CCMD_GET_MERKLE_LEAF_PROOF
        · subst hproof
          have hother : CCMD_GET_MERKLE_LEAF_PROOF ≠ CCMD_GET_MERKLE_LEAF_INDEX ∧
              CCMD_GET_MERKLE_LEAF_PROOF ≠ CCMD_GET_MORE_ELEMENTS := by decide
          simp only [if_true, getMerkleLeafProof_agree_iff h.tree_of, forall_const, hother.1, hother.2,
            false_implies, and_true]
        · by_cases hindex : code = CCMD_GET_MERKLE_LEAF_INDEX
          · subst hindex
            have hother : CCMD_GET_MERKLE_LEAF_INDEX ≠ CCMD_GET_MORE_ELEMENTS := by decide
            simp only [hproof, if_false, if_true, getMerkleLeafIndex_agree_iff, forall_const, hother,
              false_implies, true_and, and_true]
          · by_cases hmore : code = CCMD_GET_MORE_ELEMENTS
            · subst hmore
              simp only [hproof, hindex, if_false, if_true, getMoreElements_agree_iff, forall_const,
                false_implies, true_and]
            · simp [hproof, hindex, hmore]

def Python.Interpreter.after (i : Python.Interpreter) (s : Pending) (request : Bytes) : Pending :=
  (i.execute s request).elim s Prod.snd

def CanonicalRun (i : Python.Interpreter) : Pending → List Bytes → Prop
  | _, [] => True
  | s, request :: requests =>
    CanonicalRequest (i.tree? Python.MerkleTree.view) s request ∧ CanonicalRun i (i.after s request) requests

theorem answers_cons (execute : Pending → Bytes → Option (Bytes × Pending)) (s : Pending)
    (request : Bytes) (requests : List Bytes) :
    answers execute s (request :: requests) =
      ((execute s request).map Prod.fst, (execute s request).elim s Prod.snd) ::
        answers execute ((execute s request).elim s Prod.snd) requests := by
  rw [answers]
  cases execute s request <;> rfl

theorem answer_injective {x y : Option (Bytes × Pending)}
    (hfst : x.map Prod.fst = y.map Prod.fst) (hsnd : x.elim s Prod.snd = y.elim s Prod.snd) : x = y := by
  cases x with
  | none =>
    cases y with
    | none => rfl
    | some y => cases hfst
  | some x =>
    cases y with
    | none => cases hfst
    | some y =>
      have hfst' : x.1 = y.1 := Option.some.inj hfst
      have hsnd' : x.2 = y.2 := hsnd
      rw [Prod.ext hfst' hsnd']

theorem answers_agree_iff (h : SameKnowledge sha256 python javaScript rust) (s : Pending)
    (requests : List Bytes) :
    (answers javaScript.execute s requests = answers python.execute s requests ∧
        answers (rust.execute varInt) s requests = answers python.execute s requests) ↔
      CanonicalRun python s requests := by
  induction requests generalizing s with
  | nil => exact ⟨fun _ => trivial, fun _ => ⟨rfl, rfl⟩⟩
  | cons request requests ih =>
    rw [CanonicalRun, ← execute_agree_iff h, ← ih, Python.Interpreter.after]
    simp only [answers_cons, cons.injEq, Prod.mk.injEq]
    constructor
    · rintro ⟨⟨⟨hjfst, hjsnd⟩, hjrest⟩, ⟨hrfst, hrsnd⟩, hrrest⟩
      have hj := answer_injective hjfst hjsnd
      have hr := answer_injective hrfst hrsnd
      rw [hj] at hjrest
      rw [hr] at hrrest
      exact ⟨⟨hj, hr⟩, hjrest, hrrest⟩
    · rintro ⟨⟨hj, hr⟩, hjrest, hrrest⟩
      rw [hj, hr]
      exact ⟨⟨⟨rfl, rfl⟩, hjrest⟩, ⟨rfl, rfl⟩, hrrest⟩

/-- The three clients, told the same things, give the same answers and the same queues. -/
def InterpretersAgree (varInt : VarInt) (sha256 : Bytes → Digest) (known : List Known) (requests : List Bytes) :
    Prop :=
  ∃ python javaScript rust, Python.Interpreter.new sha256 known = some python ∧
    JavaScript.Interpreter.new sha256 known = some javaScript ∧
    Rust.ClientCommandInterpreter.new sha256 known = some rust ∧
    answers javaScript.execute ⟨[], []⟩ requests = answers python.execute ⟨[], []⟩ requests ∧
    answers (rust.execute varInt) ⟨[], []⟩ requests = answers python.execute ⟨[], []⟩ requests

theorem Rust.ne_nil_of_foldlM_add {known : List Known} {i i' : Rust.ClientCommandInterpreter}
    (h : known.foldlM (Rust.ClientCommandInterpreter.add sha256) i = some i') :
    .list [] ∉ known := by
  induction known generalizing i with
  | nil => simp
  | cons k known ih =>
    obtain ⟨i1, hadd, hrest⟩ := Option.bind_eq_some_iff.mp h
    rw [mem_cons, not_or]
    refine ⟨?_, ih hrest⟩
    rintro rfl
    cases hadd

/-- **Agreement of the interpreters.** They agree exactly if no registered list is empty and they agree
on every request. -/
theorem interpretersAgree_iff {known : List Known} {requests : List Bytes}
    (hle : ∀ elements, .list elements ∈ known → elements.length ≤ 2 ^ 31)
    (hdistinct : DistinctHashes sha256 known) :
    InterpretersAgree varInt sha256 known requests ↔
      .list [] ∉ known ∧ ∃ python, Python.Interpreter.new sha256 known = some python ∧
        CanonicalRun python ⟨[], []⟩ requests := by
  have hbuildable (hne : .list [] ∉ known) : Known.Buildable known := by
    intro elements hmem
    refine ⟨?_, hle elements hmem⟩
    rintro rfl
    exact hne hmem
  constructor
  · rintro ⟨python, javaScript, rust, hpython, hjavaScript, hrust, hagree⟩
    have hne : .list [] ∉ known := Rust.ne_nil_of_foldlM_add hrust
    obtain ⟨python', javaScript', rust', hpython', hjavaScript', hrust', hsame⟩ :=
      sameKnowledge (hbuildable hne) hdistinct
    obtain rfl := Option.some.inj (hpython.symm.trans hpython')
    obtain rfl := Option.some.inj (hjavaScript.symm.trans hjavaScript')
    obtain rfl := Option.some.inj (hrust.symm.trans hrust')
    exact ⟨hne, python, hpython, (answers_agree_iff hsame _ _).mp hagree⟩
  · rintro ⟨hne, python, hpython, hrun⟩
    obtain ⟨python', javaScript, rust, hpython', hjavaScript, hrust, hsame⟩ :=
      sameKnowledge (hbuildable hne) hdistinct
    obtain rfl := Option.some.inj (hpython.symm.trans hpython')
    exact ⟨python, javaScript, rust, hpython, hjavaScript, hrust, (answers_agree_iff hsame _ _).mpr hrun⟩

end

namespace TwoElements

open TwoLeaves (leafA leafB root)

def known : List Known := [.list [[0x41], [0x42]]]

def sha256 : Bytes → Digest :=
  sha256Table [([0x00, 0x41], leafA), ([0x00, 0x42], leafB), (nodeMessage leafA leafB, root)]

def indexRequest (leafHash : Bytes) : Bytes := CCMD_GET_MERKLE_LEAF_INDEX :: root.bytes ++ leafHash

theorem distinctHashes : DistinctHashes sha256 known where
  preimages := by decide +kernel
  trees := by
    intro k hk k' hk' _ _ _ _ _
    rw [mem_singleton.mp hk, mem_singleton.mp hk']

end TwoElements

open TwoElements TwoLeaves in
theorem interpretersAgree_indexRequest :
    InterpretersAgree .minimal TwoElements.sha256 known [indexRequest leafB.bytes] ↔
      .list [] ∉ known ∧ ∃ python, Python.Interpreter.new TwoElements.sha256 known = some python ∧
        CanonicalRun python ⟨[], []⟩ [indexRequest leafB.bytes] := by
  apply interpretersAgree_iff _ distinctHashes
  intro elements hmem
  obtain rfl : elements = [[0x41], [0x42]] := by simpa [known] using hmem
  decide

open TwoElements in
/-- The Rust client does not say that a leaf is not in the tree, and it cannot know an empty list. -/
theorem not_interpretersAgree :
    ¬InterpretersAgree .minimal TwoElements.sha256 known [indexRequest (Digest.ofNat 1).bytes] ∧
      ¬InterpretersAgree .minimal TwoElements.sha256 [.list []] [] := by
  constructor
  · rintro ⟨python, javaScript, rust, hpython, -, hrust, -, hanswers⟩
    have hdiffer : (Python.Interpreter.new TwoElements.sha256 known).map
          (fun i => answers i.execute ⟨[], []⟩ [indexRequest (Digest.ofNat 1).bytes]) ≠
        (Rust.ClientCommandInterpreter.new TwoElements.sha256 known).map
          (fun i => answers (i.execute .minimal) ⟨[], []⟩ [indexRequest (Digest.ofNat 1).bytes]) := by
      decide +kernel
    rw [hpython, hrust, Option.map_some, Option.map_some, hanswers] at hdiffer
    exact hdiffer rfl
  · rintro ⟨python, javaScript, rust, -, -, hrust, -⟩
    exact Rust.ne_nil_of_foldlM_add hrust List.mem_cons_self

end LedgerBabylon
