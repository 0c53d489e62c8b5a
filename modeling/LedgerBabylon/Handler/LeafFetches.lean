import LedgerBabylon.Handler.Clients
import LedgerBabylon.Handler.EnvironmentInvariants

/-!
# The leaves that a client has proved

What a client commits to with a Merkle root shows in the leaves that it proves. They are recorded here:
the tree and the index, the hash, and the element that was returned for it or looked up. The record does
not change what the device does. Without a collision, consistent fetches show what a sorted tree is for:
a key has one index, and so one value.
-/

namespace LedgerBabylon

open Exec HashPath List

variable {root : Digest} {index : UInt32}

variable {α : Type}

variable {x y : Cmd α} {c c' : Comm} {a : α} {outLen : Nat}

/-- A leaf that the client has proved, with the strings that were hashed for the proof. -/
structure LeafFetch where
  root : Digest
  size : UInt32
  index : UInt32
  hash : Digest
  element : Bytes
  hashed : List Bytes
  deriving DecidableEq

variable {f g key : LeafFetch} {fetches' : List LeafFetch}

namespace LeafFetch

variable (sha256 : Bytes → Digest)

/-- A path in the directions of the index leads from the hash of the leaf to the root, and its nodes are
what was hashed. -/
def Proved (f : LeafFetch) : Prop :=
  ∃ path : List (Bool × Digest), (path.map fun step => some (some step.1)) =
      ((range path.length).map (merkleGetIthDirection f.size f.index)).reverse ∧
    climb sha256 nodeMessage f.hash path = f.root ∧ f.hashed = HashPath.messages sha256 nodeMessage f.hash path

def Functional (fetches : List LeafFetch) : Prop :=
  ∀ f ∈ fetches, ∀ g ∈ fetches, f.root = g.root → f.size = g.size → f.index = g.index →
    f.hash = g.hash ∧ f.element = g.element

instance : DecidablePred Functional := fun fetches =>
  inferInstanceAs (Decidable (∀ f ∈ fetches, ∀ g ∈ fetches, f.root = g.root → f.size = g.size →
    f.index = g.index → f.hash = g.hash ∧ f.element = g.element))

def Authentic (fetches : List LeafFetch) : Prop :=
  ∀ f ∈ fetches, merkleComputeElementHash sha256 f.element = f.hash

instance (fetches : List LeafFetch) : Decidable (Authentic sha256 fetches) :=
  inferInstanceAs (Decidable (∀ f ∈ fetches, merkleComputeElementHash sha256 f.element = f.hash))

def messages (fetches : List LeafFetch) : List Bytes :=
  fetches.flatMap fun f => (0x00 :: f.element) :: f.hashed

variable {sha256} {fetches : List LeafFetch}

/-- An empty proof shows that the leaf is the root, for any index; any other one, that the root is an
inner node and the index inside of the tree. -/
theorem Proved.root_or_inner (h : f.Proved sha256) : f.hash = f.root ∨ (f.index < f.size ∧ 1 < f.size ∧
      ∃ l r, nodeMessage l r ∈ f.hashed ∧ sha256 (nodeMessage l r) = f.root) := by
  obtain ⟨path, hdirections, hroot, hhashed⟩ := h
  by_cases hempty : path = []
  · subst hempty
    exact .inl hroot
  · right
    obtain ⟨m, hm, hhash⟩ := climb_eq_hash sha256 nodeMessage f.hash hempty
    obtain ⟨l, r, rfl⟩ := exists_node_of_mem_messages sha256 nodeMessage hm
    obtain ⟨hsize, hindex⟩ := index_lt_of_directions hempty hdirections
    exact ⟨hindex, hsize, l, r, hhashed ▸ hm, hhash.trans hroot⟩

theorem mem_messages_element (hf : f ∈ fetches) : 0x00 :: f.element ∈ messages fetches :=
  mem_flatMap.mpr ⟨f, hf, mem_cons_self⟩

theorem mem_messages_hashed (hf : f ∈ fetches) {m : Bytes} (hm : m ∈ f.hashed) : m ∈ messages fetches :=
  mem_flatMap.mpr ⟨f, hf, mem_cons_of_mem _ hm⟩

variable (hauthentic : Authentic sha256 fetches) (hfree : ¬Collides sha256 (messages fetches))

include hauthentic hfree

theorem element_eq_of_hash_eq (hf : f ∈ fetches) (hg : g ∈ fetches)
    (h : f.hash = g.hash) : f.element = g.element := by
  by_contra hne
  apply hfree
  refine ⟨_, mem_messages_element hf, _, mem_messages_element hg, by simpa using hne, ?_⟩
  exact (hauthentic f hf).trans (h.trans (hauthentic g hg).symm)

theorem hash_eq_root (hf : f ∈ fetches) (hg : g ∈ fetches) (hroot : f.root = g.root)
    (hproved : g.Proved sha256) (h : f.hash = f.root) : g.hash = g.root := by
  rcases hproved.root_or_inner with hempty | ⟨-, -, l, r, hmem, hnode⟩
  · exact hempty
  · exfalso
    apply hfree
    refine ⟨_, mem_messages_element hf, _, mem_messages_hashed hg hmem, by simp [nodeMessage], ?_⟩
    exact (hauthentic f hf).trans (h.trans (hroot.trans hnode.symm))

end LeafFetch

structure KeysFetched (fetches : List LeafFetch) (root : Digest) (size : UInt32)
    (keys : List Bytes) : Prop where
  length : keys.length = size.toNat
  nodup : keys.Nodup
  fetched : ∀ i key, keys[i]? = some key →
    ∃ f ∈ fetches, f.root = root ∧ f.size = size ∧ f.index.toNat = i ∧ f.element = key

structure LookedUp (fetches : List LeafFetch) (map : MerkleizedMapCommitment) (size : UInt32)
    (key value : LeafFetch) : Prop where
  key_mem : key ∈ fetches
  key_root : key.root = map.keysRoot
  key_size : key.size = size
  value_mem : value ∈ fetches
  value_root : value.root = map.valuesRoot
  value_size : value.size = size
  index : key.index = value.index

theorem KeysFetched.mono {fetches : List LeafFetch} (hsub : fetches ⊆ fetches')
    {size : UInt32} {keys : List Bytes} (h : KeysFetched fetches root size keys) :
    KeysFetched fetches' root size keys where
  length := h.length
  nodup := h.nodup
  fetched i key hkey := by
    obtain ⟨f, hf, hrest⟩ := h.fetched i key hkey
    exact ⟨f, hsub hf, hrest⟩

variable {value : LeafFetch}

theorem LookedUp.mono {fetches : List LeafFetch} (hsub : fetches ⊆ fetches')
    {map : MerkleizedMapCommitment} {size : UInt32}
    (h : LookedUp fetches map size key value) : LookedUp fetches' map size key value :=
  { h with key_mem := hsub h.key_mem, value_mem := hsub h.value_mem }

section

variable {sha256 : Bytes → Digest} {fetches : List LeafFetch} {map : MerkleizedMapCommitment}
  {size : UInt32} {keys : List Bytes} (hproved : ∀ f ∈ fetches, f.Proved sha256)
  (hfunctional : LeafFetch.Functional fetches) (hauthentic : LeafFetch.Authentic sha256 fetches)
  (hfree : ¬Collides sha256 (LeafFetch.messages fetches))
  (hkeys : KeysFetched fetches map.keysRoot size keys)

include hproved hfunctional hkeys in
theorem KeysFetched.getElem?_index (h : LookedUp fetches map size key value)
    (hroot : key.hash ≠ key.root) : keys[key.index.toNat]? = some key.element := by
  rcases (hproved key h.key_mem).root_or_inner with hempty | ⟨hindex, -, -⟩
  · exact absurd hempty hroot
  · have hlt : key.index.toNat < keys.length := by
      rw [hkeys.length, ← h.key_size]
      exact hindex
    obtain ⟨el, hel⟩ : ∃ el, keys[key.index.toNat]? = some el := ⟨_, getElem?_eq_getElem hlt⟩
    obtain ⟨f, hf, hfroot, hfsize, hfindex, hfel⟩ := hkeys.fetched _ el hel
    have hsame := hfunctional f hf key h.key_mem (hfroot.trans h.key_root.symm)
      (hfsize.trans h.key_size.symm) (UInt32.toNat_inj.mp hfindex)
    rw [hel, ← hfel, hsame.2]

include hproved hauthentic hfree hkeys in
theorem KeysFetched.eq_of_hash_eq_root (h : LookedUp fetches map size key value)
    (hroot : key.hash = key.root) {i : Nat} {el : Bytes} (hel : keys[i]? = some el) :
    el = key.element := by
  obtain ⟨f, hf, hfroot, -, -, rfl⟩ := hkeys.fetched i el hel
  have hsame : key.root = f.root := h.key_root.trans hfroot.symm
  have hhash := LeafFetch.hash_eq_root hauthentic hfree h.key_mem hf hsame (hproved f hf) hroot
  apply LeafFetch.element_eq_of_hash_eq hauthentic hfree hf h.key_mem
  rw [hhash, hroot, hsame]

include hproved hfunctional hauthentic hfree hkeys in
theorem KeysFetched.mem_iff (h : LookedUp fetches map size key value) : key.element ∈ keys ↔ size ≠ 0 := by
  have hempty : size = 0 ↔ keys.length = 0 := by
    rw [hkeys.length]
    exact UInt32.toNat_inj.symm
  constructor
  · rintro hmem rfl
    rw [length_eq_zero_iff.mp (hempty.mp rfl)] at hmem
    cases hmem
  · intro hsize
    by_cases hroot : key.hash = key.root
    · obtain ⟨el, hel⟩ : ∃ el, keys[0]? = some el := by
        cases hcases : keys with
        | nil => exact absurd (hempty.mpr (by rw [hcases]; rfl)) hsize
        | cons el rest => exact ⟨el, rfl⟩
      rw [← hkeys.eq_of_hash_eq_root hproved hauthentic hfree h hroot hel]
      exact mem_of_getElem? hel
    · exact mem_of_getElem? (hkeys.getElem?_index hproved hfunctional h hroot)

include hproved hauthentic hfree hkeys in
theorem KeysFetched.hash_ne_root (h : LookedUp fetches map size key value)
    (hsize : 1 < size) : key.hash ≠ key.root := by
  intro hroot
  have hlen : 1 < keys.length := by
    rw [hkeys.length]
    exact hsize
  have hfirst := getElem?_eq_getElem (Nat.zero_lt_of_lt hlen)
  have hsecond := getElem?_eq_getElem hlen
  have hsame : keys[0]? = keys[1]? := by
    rw [hfirst, hsecond, hkeys.eq_of_hash_eq_root hproved hauthentic hfree h hroot hfirst,
      hkeys.eq_of_hash_eq_root hproved hauthentic hfree h hroot hsecond]
  exact absurd ((getElem?_inj (Nat.zero_lt_of_lt hlen) hkeys.nodup).mp hsame) Nat.zero_ne_one

include hproved hfunctional hauthentic hfree hkeys in
/-- Two lookups of a key have the same value. -/
theorem KeysFetched.value_unique {key' value value' : LeafFetch}
    (h : LookedUp fetches map size key value) (h' : LookedUp fetches map size key' value')
    (hkey : key.element = key'.element) : value.element = value'.element := by
  have hroot : value.root = value'.root := h.value_root.trans h'.value_root.symm
  rcases (hproved value h.value_mem).root_or_inner with hempty | ⟨hindex, hsize, -⟩
  · have hhash := LeafFetch.hash_eq_root hauthentic hfree h.value_mem h'.value_mem hroot
      (hproved value' h'.value_mem) hempty
    apply LeafFetch.element_eq_of_hash_eq hauthentic hfree h.value_mem h'.value_mem
    rw [hempty, hhash, hroot]
  · -- both keys are at their index, so the indexes agree
    rw [h.value_size] at hsize
    have hne := hkeys.hash_ne_root hproved hauthentic hfree h hsize
    have hne' := hkeys.hash_ne_root hproved hauthentic hfree h' hsize
    have hat := hkeys.getElem?_index hproved hfunctional h hne
    have hat' := hkeys.getElem?_index hproved hfunctional h' hne'
    obtain ⟨hlt, -⟩ := List.getElem?_eq_some_iff.mp hat
    have hindex : key.index.toNat = key'.index.toNat := by
      apply (getElem?_inj hlt hkeys.nodup).mp
      rw [hat, hat', hkey]
    apply (hfunctional value h.value_mem value' h'.value_mem hroot
      (h.value_size.trans h'.value_size.symm) _).2
    rw [← h.index, ← h'.index]
    exact UInt32.toNat_inj.mp hindex

end

structure FetchLog where
  outside : Outside
  fetches : List LeafFetch

variable {s s' : FetchLog}

namespace FetchLog

def onOutside (x : Ask Outside α) : Ask FetchLog α := onPart outside (fun s e => { s with outside := e }) x

def command (x : Cmd α) : Ask FetchLog α := onOutside (Outside.command x)

def hashing (x : Cmd α) : Ask FetchLog (α × List Bytes) := do
  let before ← get
  let a ← command x
  let after ← get
  return (a, newlyHashed before.outside.comm after.outside.comm)

def note (f : LeafFetch) : Ask FetchLog Unit := modify fun s => { s with fetches := s.fetches ++ [f] }

variable (sha256 : Bytes → Digest)

def leafElement (root : Digest) (size index : UInt32) (outLen : Nat) : Ask FetchLog Bytes := do
  let (hash, hashed) ← hashing (callGetMerkleLeafHash sha256 size index root)
  let element ← command (callGetMerklePreimage sha256 hash outLen)
  note { root, size, index, hash, element, hashed }
  return element

def keyFetch (map : MerkleizedMapCommitment) (key : Bytes) (index : UInt32)
    (hashed : List Bytes) : LeafFetch where
  root := map.keysRoot
  size := UInt32.ofNat map.size
  index
  hash := merkleComputeElementHash sha256 key
  element := key
  hashed

def mapValue (map : MerkleizedMapCommitment) (key : Bytes) (outLen : Nat) : Ask FetchLog Bytes := do
  let (index, hashed) ← hashing (merkleizedMapIndex sha256 map key)
  note (keyFetch sha256 map key index hashed)
  leafElement sha256 map.valuesRoot (UInt32.ofNat map.size) index outLen

end FetchLog

open FetchLog in
def Environment.logged (env : Environment Outside) (sha256 : Bytes → Digest) : Environment FetchLog where
  preimage hash outLen := onOutside (env.preimage hash outLen)
  leafElement := FetchLog.leafElement sha256
  mapValue := FetchLog.mapValue sha256
  streamMapValue map key := onOutside (env.streamMapValue map key)
  rawtx map key outputIndex := onOutside (env.rawtx map key outputIndex)
  bip32Derivation keyType valuesRoot size index :=
    onOutside (env.bip32Derivation keyType valuesRoot size index)
  yield response := onOutside (env.yield response)
  sendSw sw ec := onOutside (env.sendSw sw ec)
  confirm screen := onOutside (env.confirm screen)
  musigRound2 psbtSessionId := onOutside (env.musigRound2 psbtSessionId)

namespace FetchLog

variable {β : Type} {sha256 : Bytes → Digest}

def erase : EStateM.Result Fault FetchLog α → EStateM.Result Fault Outside α
  | .ok a s => .ok a s.outside
  | .error fault s => .error fault s.outside

def Erases (x : Ask FetchLog α) (y : Cmd α) : Prop := ∀ s, erase (x s) = Outside.command y s.outside

theorem erases_command (x : Cmd α) : Erases (command x) x := by
  intro s
  unfold command onOutside onPart
  cases Outside.command x s.outside <;> rfl

theorem Erases.bind {x : Ask FetchLog α} {f : α → Ask FetchLog β} {g : α → Cmd β}
    (hx : Erases x y) (hf : ∀ a, Erases (f a) (g a)) : Erases (x >>= f) (y >>= g) := by
  intro s
  have hs := hx s
  cases hrun : x s with
  | ok a s' =>
    rw [hrun, erase, Outside.command] at hs
    split at hs
    · rename_i b c hy
      obtain ⟨rfl, hout⟩ : a = b ∧ s'.outside = { s.outside with comm := c } := by simpa using hs
      rw [bind_of_ok hrun, hf a s', Outside.command, Outside.command, bind_of_ok hy, hout]
    · cases hs
  | error fault s' =>
    rw [hrun, erase, Outside.command] at hs
    split at hs
    · cases hs
    · rename_i e c hy
      obtain ⟨rfl, hout⟩ : fault = e ∧ s'.outside = { s.outside with comm := c } := by simpa using hs
      rw [bind_of_error hrun, erase, Outside.command, bind_of_error hy, hout]

theorem Erases.hashing_bind {f : α × List Bytes → Ask FetchLog β} {g : α → Cmd β}
    (hf : ∀ a hashed, Erases (f (a, hashed)) (g a)) : Erases (hashing x >>= f) (x >>= g) := by
  intro s
  have hget : (hashing x >>= f) s = (do
      let a ← command x
      let after ← get
      f (a, newlyHashed s.outside.comm after.outside.comm)) s := by
    simp only [hashing, bind_assoc, pure_bind]
    rfl
  rw [hget]
  exact (erases_command x).bind (fun a s' => hf a _ s') s

theorem Erases.note_bind {x : Ask FetchLog α} (h : Erases x y) :
    Erases (note f >>= fun _ => x) y := fun s => h { s with fetches := s.fetches ++ [f] }

theorem erases_leafElement (root : Digest) (size index : UInt32) (outLen : Nat) :
    Erases (leafElement sha256 root size index outLen)
      (callGetMerkleLeafElement sha256 root size index outLen) := by
  apply Erases.hashing_bind
  intro hash hashed
  have hlast := (erases_command (callGetMerklePreimage sha256 hash outLen)).bind (f := fun element => do
      note { root, size, index, hash, element, hashed }
      return element) (g := pure) fun element => Erases.note_bind fun s => rfl
  rwa [bind_pure] at hlast

theorem erases_mapValue (map : MerkleizedMapCommitment) (key : Bytes) (outLen : Nat) :
    Erases (mapValue sha256 map key outLen) (callGetMerkleizedMapValue sha256 map key outLen) := by
  apply Erases.hashing_bind
  intro index hashed
  apply Erases.note_bind
  exact erases_leafElement _ _ _ _

end FetchLog

section

variable {sha256 : Bytes → Digest}

theorem proved_of_leafHash {hash : Digest} {size : UInt32} (element : Bytes)
    (h : callGetMerkleLeafHash sha256 size index root c = .ok hash c') :
    LeafFetch.Proved sha256 ⟨root, size, index, hash, element, newlyHashed c c'⟩ := by
  obtain ⟨path, hpath⟩ := callGetMerkleLeafHash_ok h
  refine ⟨path, ?_, hpath.out_eq.symm, hpath.newlyHashed_eq⟩
  rw [hpath.directions_reverse, hpath.length_path]

theorem proved_of_merkleizedMapIndex {map : MerkleizedMapCommitment} {key : Bytes}
    (h : merkleizedMapIndex sha256 map key c = .ok index c') :
    (FetchLog.keyFetch sha256 map key index (newlyHashed c c')).Proved sha256 := by
  rw [merkleizedMapIndex, orRet_ok_iff] at h
  obtain ⟨_, c1, hset, h⟩ := bind_ok h
  obtain ⟨_, c2, hinterrupt, h⟩ := bind_ok h
  obtain ⟨found, c3, hfound, h⟩ := bind_ok h
  obtain ⟨i, c4, hindex, h⟩ := bind_ok h
  obtain ⟨_, _, hflag, h⟩ := bind_ok h
  obtain ⟨-, rfl⟩ := require_ok_iff.mp hflag
  obtain ⟨_, _, hone, h⟩ := bind_ok h
  obtain ⟨-, rfl⟩ := require_ok_iff.mp hone
  obtain ⟨returned, c5, hhash, h⟩ := bind_ok h
  obtain ⟨_, _, hsame, h⟩ := bind_ok h
  obtain ⟨hsame, rfl⟩ := require_ok_iff.mp hsame
  obtain ⟨_, c6, hint, h⟩ := bind_ok h
  obtain ⟨rfl, rfl⟩ := pure_ok h
  obtain rfl := returnInt_ok hint
  obtain ⟨msg, hmsg⟩ := processInterruption_ok (orRet_ok_iff.mp hinterrupt)
  obtain ⟨b1, -, rfl⟩ := readOr_ok hfound
  obtain ⟨b2, -, rfl⟩ := readOr_ok hindex
  rw [orRet_ok_iff] at hhash
  obtain rfl : merkleComputeElementHash sha256 key = returned := by simpa using hsame
  have hhashed : c2.hashed = c.hashed := hmsg.hashed.trans (setResponse_sameInput hset).hashed
  have hproved := proved_of_leafHash key hhash
  rwa [newlyHashed, hhashed] at hproved

end

namespace FetchLog

variable {sha256 : Bytes → Digest} {fetches : List LeafFetch}

structure Extends (sha256 : Bytes → Digest) (fetches : List LeafFetch) (s : FetchLog) : Prop where
  le : fetches <+: s.fetches
  proved : ∀ f ∈ s.fetches, f.Proved sha256

theorem Extends.mem (h : Extends sha256 fetches s) (hf : f ∈ fetches) : f ∈ s.fetches := h.le.subset hf

theorem command_ok (h : command x s = .ok a s') :
    ∃ c, x s.outside.comm = .ok a c ∧ s' = { s with outside := { s.outside with comm := c } } := by
  unfold command onOutside onPart Outside.command at h
  cases hx : x s.outside.comm with
  | ok b c =>
    rw [hx] at h
    cases h
    exact ⟨c, rfl, rfl⟩
  | error fault c =>
    rw [hx] at h
    cases h

theorem hashing_ok {hashed : List Bytes} (h : hashing x s = .ok (a, hashed) s') :
    ∃ c c', x c = .ok a c' ∧ hashed = newlyHashed c c' ∧ s'.fetches = s.fetches := by
  rw [hashing, get_bind_apply] at h
  obtain ⟨b, s2, hcommand, h⟩ := bind_ok h
  rw [get_bind_apply] at h
  obtain ⟨heq, rfl⟩ := pure_ok h
  obtain ⟨c, hx, rfl⟩ := command_ok hcommand
  cases heq
  exact ⟨s.outside.comm, c, hx, rfl, rfl⟩

theorem leafElement_ok {size : UInt32} {element : Bytes} (h : leafElement sha256 root size index outLen s = .ok element s') :
    ∃ f, s'.fetches = s.fetches ++ [f] ∧ f.root = root ∧ f.size = size ∧ f.index = index ∧
      f.element = element := by
  obtain ⟨⟨hash, hashed⟩, s1, hhash, h⟩ := bind_ok h
  obtain ⟨el, s2, hel, h⟩ := bind_ok h
  obtain ⟨⟨⟩, s3, hnote, h⟩ := bind_ok h
  obtain ⟨rfl, rfl⟩ := pure_ok h
  obtain ⟨-, -, -, -, hfetches⟩ := hashing_ok hhash
  obtain ⟨c, -, rfl⟩ := command_ok hel
  rw [note, modify_ok_iff] at hnote
  subst hnote
  exact ⟨_, congrArg (· ++ _) hfetches, rfl, rfl, rfl, rfl⟩

theorem mapValue_ok {map : MerkleizedMapCommitment} {key value : Bytes} (h : mapValue sha256 map key outLen s = .ok value s') :
    ∃ f g, f.element = key ∧ g.element = value ∧ LookedUp s'.fetches map (UInt32.ofNat map.size) f g := by
  obtain ⟨⟨index, hashed⟩, s1, hindex, h⟩ := bind_ok h
  obtain ⟨⟨⟩, s2, hnote, h⟩ := bind_ok h
  rw [note, modify_ok_iff] at hnote
  subst hnote
  obtain ⟨g, hfetches, hroot, hsize, hgindex, hvalue⟩ := leafElement_ok h
  refine ⟨keyFetch sha256 map key index hashed, g, rfl, hvalue, ?_⟩
  constructor
  case key_mem =>
    rw [hfetches]
    exact mem_append_left _ (mem_append_right _ (mem_singleton_self _))
  case value_mem =>
    rw [hfetches]
    exact mem_append_right _ (mem_singleton_self _)
  case value_root => exact hroot
  case value_size => exact hsize
  case index => exact hgindex.symm
  all_goals rfl

theorem keeps_onOutside (x : Ask Outside α) : Keeps (Extends sha256 fetches) (onOutside x) :=
  keeps_onPart (fun _ _ hs => ⟨hs.le, hs.proved⟩) x

theorem keeps_note (hf : f.Proved sha256) : Keeps (Extends sha256 fetches) (note f) := by
  apply keeps_modify
  intro s hs
  refine ⟨hs.le.trans (prefix_append _ _), ?_⟩
  intro g hg
  rcases mem_append.mp hg with hold | hlast
  · exact hs.proved g hold
  · rwa [mem_singleton.mp hlast]

theorem within_hashing (x : Cmd α) : Within (Extends sha256 fetches) (fun _ _ => True)
      (fun r => ∃ c c', x c = .ok r.1 c' ∧ r.2 = newlyHashed c c') (hashing x) := by
  have hkeeps : Keeps (Extends sha256 fetches) (hashing x) := by
    unfold hashing command
    have hcommand : Keeps (Extends sha256 fetches) (onOutside (Outside.command x)) := keeps_onOutside _
    grind
  apply Within.of_cases
  · intro s r s' hs h
    obtain ⟨c, c', hx, hhashed, -⟩ := hashing_ok h
    exact ⟨trivial, (hkeeps.ok hs h).2.1, c, c', hx, hhashed⟩
  · intro s e s' hs h
    exact hkeeps.error hs h

theorem keeps_leafElement (root : Digest) (size index : UInt32) (outLen : Nat) :
    Keeps (Extends sha256 fetches) (leafElement sha256 root size index outLen) := by
  apply Within.bind (within_hashing _)
  rintro ⟨hash, hashed⟩ ⟨c, c', hhash, rfl⟩
  apply keeps_bind (keeps_onOutside _)
  intro element
  apply keeps_bind (keeps_note (proved_of_leafHash element hhash))
  intro _
  exact keeps_pure _

theorem keeps_mapValue (map : MerkleizedMapCommitment) (key : Bytes) (outLen : Nat) :
    Keeps (Extends sha256 fetches) (mapValue sha256 map key outLen) := by
  apply Within.bind (within_hashing _)
  rintro ⟨index, hashed⟩ ⟨c, c', hindex, rfl⟩
  apply keeps_bind (keeps_note (proved_of_merkleizedMapIndex hindex))
  intro _
  exact keeps_leafElement _ _ _ _

end FetchLog

open FetchLog in
theorem logged_keeps (sha256 : Bytes → Digest) (env : Environment Outside)
    (fetches : List LeafFetch) : (env.logged sha256).Keeps (Extends sha256 fetches) where
  preimage _ _ := keeps_onOutside _
  leafElement := keeps_leafElement
  mapValue := keeps_mapValue
  streamMapValue _ _ := keeps_onOutside _
  rawtx _ _ _ := keeps_onOutside _
  bip32Derivation _ _ _ _ := keeps_onOutside _
  sendSw _ _ := keeps_onOutside _
  confirm _ := keeps_onOutside _
  musigRound2 _ := keeps_onOutside _

end LedgerBabylon
