import LedgerBabylon.Common.PolicyText
import LedgerBabylon.Handler.KeyReuse

/-!
# Where the key expressions are

The parser puts a key expression where its output buffer has got to, and the search by index follows the
pointers of the nodes. The keys of a multisig have one pointer, to the first of them, and are reached from
there as an array. So the search finds the key expressions as they were parsed if no musig expression has
another key of its node behind it, and only then.
-/

namespace LedgerBabylon

open Endian Exec Parse List
open PolicyNode hiding keys

variable {xs : List PolicyNode} {tree : PolicyTree PolicyNode} {a : Nat}

section

variable (env : ParseEnv)

mutual

/-- `get_keyexpr_by_index` for a node at an offset: the number of key expressions, and the address of
the one with index `i` with its tapleaf, if any. -/
def getKeyexprAddress : PolicyNode → Nat → Nat → Nat × Option (Nat × Option PolicyNode)
  | .constant _ _, _, _ | .withHash _ _ _, _, _ | .withUint32 _ _ _, _, _ => (0, none)
  | .withKey _ _ _, a, i => (1, if i = 0 then some (padded (env.after .nodeWithKey a), none) else none)
  | .tr key tree, a, i =>
    let rest := getKeyexprAddressInTr tree (key.layout env (env.after .nodeTr a)) (if i = 0 then 0 else i - 1)
    (1 + rest.1, if i = 0 then some (padded (env.after .nodeTr a), none) else rest.2)
  | .multisig _ _ _ keys, a, i =>
    -- an element of the array at the pointer to the keys
    (keys.length, if i < keys.length then
      some (env.aligned (env.after .nodeMultisig a) + env.sizeof .keyexpr * i, none) else none)
  | .sh x, a, i | .wsh x, a, i => getKeyexprAddress x (env.aligned (env.after .nodeWithScript a)) i
  | .wrapper _ _ x, a, i => getKeyexprAddress x (env.after .nodeWithScript a) i
  | .withScript2 _ _ x y, a, i =>
    let first := env.aligned (env.after .nodeWithScript2 a)
    orNext i (getKeyexprAddress x first i) (getKeyexprAddress y (env.aligned (x.layout env first)))
  | .andor _ x y z, a, i =>
    let first := env.aligned (env.after .nodeWithScript3 a)
    let second := env.aligned (x.layout env first)
    orNext i (orNext i (getKeyexprAddress x first i) (getKeyexprAddress y second))
      (getKeyexprAddress z (env.aligned (y.layout env second)))
  | .thresh _ _ xs, a, i => getKeyexprAddressInList xs (env.after .nodeThresh a) i

def getKeyexprAddressInList : List PolicyNode → Nat → Nat → Nat × Option (Nat × Option PolicyNode)
  | [], _, _ => (0, none)
  | x :: xs, a, i =>
    let first := env.aligned (env.after .scriptlist a)
    orNext i (getKeyexprAddress x first i) (getKeyexprAddressInList xs (x.layout env first))

def getKeyexprAddressInTree : PolicyTree PolicyNode → Nat → Nat → Nat × Option (Nat × Option PolicyNode)
  | .leaf script, a, i =>
    let inScript := getKeyexprAddress script (env.aligned (env.after .tree a)) i
    (inScript.1, inScript.2.map fun found => (found.1, some script))
  | .branch l r, a, i =>
    let first := env.aligned (env.after .tree a)
    orNext i (getKeyexprAddressInTree l first i)
      (getKeyexprAddressInTree r (env.aligned (treeLayout env l first)))

def getKeyexprAddressInTr :
    Option (PolicyTree PolicyNode) → Nat → Nat → Nat × Option (Nat × Option PolicyNode)
  | none, _, _ => (0, none)
  | some tree, a, i => getKeyexprAddressInTree tree (env.aligned a) i

end

structure KeyPlace where
  address : Nat
  key : KeyExpr
  leaf : Option PolicyNode

def parsedAddresses : List KeyExpr → Nat → List (Nat × KeyExpr)
  | [], _ => []
  | key :: keys, a => (padded a, key) :: parsedAddresses keys (key.layout env a)

def arrayAddresses : List KeyExpr → Nat → List (Nat × KeyExpr)
  | [], _ => []
  | key :: keys, a => (a, key) :: arrayAddresses keys (a + env.sizeof .keyexpr)

section

variable (addresses : List KeyExpr → Nat → List (Nat × KeyExpr))

mutual

/-- The key expressions of a node at an offset, in the order of their indices, with those of a multisig
where `addresses` has them. -/
def PolicyNode.places : PolicyNode → Nat → List KeyPlace
  | .constant _ _, _ | .withHash _ _ _, _ | .withUint32 _ _ _, _ => []
  | .withKey _ _ key, a => [⟨padded (env.after .nodeWithKey a), key, none⟩]
  | .tr key tree, a =>
    ⟨padded (env.after .nodeTr a), key, none⟩ :: trPlaces tree (key.layout env (env.after .nodeTr a))
  | .multisig _ _ _ keys, a =>
    (addresses keys (env.aligned (env.after .nodeMultisig a))).map fun (b, key) => ⟨b, key, none⟩
  | .sh x, a | .wsh x, a => x.places (env.aligned (env.after .nodeWithScript a))
  | .wrapper _ _ x, a => x.places (env.after .nodeWithScript a)
  | .withScript2 _ _ x y, a =>
    let first := env.aligned (env.after .nodeWithScript2 a)
    x.places first ++ y.places (env.aligned (x.layout env first))
  | .andor _ x y z, a =>
    let first := env.aligned (env.after .nodeWithScript3 a)
    let second := env.aligned (x.layout env first)
    x.places first ++ y.places second ++ z.places (env.aligned (y.layout env second))
  | .thresh _ _ xs, a => scriptsPlaces xs (env.after .nodeThresh a)

def scriptsPlaces : List PolicyNode → Nat → List KeyPlace
  | [], _ => []
  | x :: xs, a =>
    let first := env.aligned (env.after .scriptlist a)
    x.places first ++ scriptsPlaces xs (x.layout env first)

def treePlaces : PolicyTree PolicyNode → Nat → List KeyPlace
  | .leaf x, a =>
    (x.places (env.aligned (env.after .tree a))).map fun place => { place with leaf := some x }
  | .branch l r, a =>
    let first := env.aligned (env.after .tree a)
    treePlaces l first ++ treePlaces r (env.aligned (treeLayout env l first))

def trPlaces : Option (PolicyTree PolicyNode) → Nat → List KeyPlace
  | none, _ => []
  | some tree, a => treePlaces tree (env.aligned a)

end

end

def PolicyNode.parsedPlaces (policy : PolicyNode) : List KeyPlace := policy.places env (parsedAddresses env) 0

/-- The search by index gives the key expressions of a template: their number and, for each index, where
the parser put it, with its tapleaf; and what is read there is the key expression. -/
def EnumeratedAsParsed (m : Memory) (policy : PolicyNode) : Prop :=
  ∀ i key leaf, policy.keyexprs[i]? = some (key, leaf) → ∃ a,
    getKeyexprAddress env policy 0 i = (policy.keyexprs.length, some (a, leaf)) ∧
    (policy.parsedPlaces env)[i]?.map KeyPlace.address = some a ∧
    readKeyRecord m a = key.record ∧ readU16 m (a + 12) = i

end

section

variable {env : ParseEnv} {addresses : List KeyExpr → Nat → List (Nat × KeyExpr)}

variable (env) in
theorem map_snd_parsedAddresses (keys : List KeyExpr) (a : Nat) :
    (parsedAddresses env keys a).map Prod.snd = keys := by
  induction keys generalizing a with
  | nil => rfl
  | cons key keys ih => rw [parsedAddresses, map_cons, ih]

variable (env) in
theorem map_snd_arrayAddresses (keys : List KeyExpr) (a : Nat) :
    (arrayAddresses env keys a).map Prod.snd = keys := by
  induction keys generalizing a with
  | nil => rfl
  | cons key keys ih => rw [arrayAddresses, map_cons, ih]

theorem getElem?_arrayAddresses (keys : List KeyExpr) (a i : Nat) :
    (arrayAddresses env keys a)[i]? = keys[i]?.map fun key => (a + env.sizeof .keyexpr * i, key) := by
  induction keys generalizing a i with
  | nil => rfl
  | cons key keys ih =>
    cases i with
    | zero => simp [arrayAddresses]
    | succ i =>
      rw [arrayAddresses, getElem?_cons_succ, getElem?_cons_succ, ih, Nat.mul_succ,
        Nat.add_assoc, Nat.add_comm (env.sizeof .keyexpr)]

def KeyPlace.found (place : KeyPlace) : Nat × Option PolicyNode := (place.address, place.leaf)

theorem getKeyexprAddressInList_eq (h : ∀ x ∈ xs, ∀ a, getKeyexprAddress env x a =
      foundIn ((x.places env (arrayAddresses env) a).map KeyPlace.found)) (a : Nat) :
    getKeyexprAddressInList env xs a =
      foundIn ((scriptsPlaces env (arrayAddresses env) xs a).map KeyPlace.found) := by
  induction xs generalizing a with
  | nil => rfl
  | cons x xs ih =>
    obtain ⟨hx, hxs⟩ := forall_mem_cons.mp h
    funext i
    rw [getKeyexprAddressInList, scriptsPlaces, hx, ih hxs, orNext_foundIn, map_append]

theorem getKeyexprAddressInTree_eq (h : ∀ x ∈ tree.leaves, ∀ a, getKeyexprAddress env x a =
      foundIn ((x.places env (arrayAddresses env) a).map KeyPlace.found)) (a : Nat) :
    getKeyexprAddressInTree env tree a =
      foundIn ((treePlaces env (arrayAddresses env) tree a).map KeyPlace.found) := by
  induction tree generalizing a with
  | leaf x =>
    funext i
    simp [getKeyexprAddressInTree, treePlaces, h x (by simp [PolicyTree.leaves]), foundIn, KeyPlace.found,
      Function.comp_def]
  | branch l r ihl ihr =>
    obtain ⟨hl, hr⟩ := forall_mem_append.mp h
    funext i
    rw [getKeyexprAddressInTree, treePlaces, ihl hl, ihr hr, orNext_foundIn, map_append]

/-- The search finds the places in their order, with the keys of a multisig as an array. -/
theorem getKeyexprAddress_eq (policy : PolicyNode) (a : Nat) : getKeyexprAddress env policy a =
      foundIn ((policy.places env (arrayAddresses env) a).map KeyPlace.found) := by
  induction policy using induction generalizing a with
  | tr key tree ih =>
    have htree (b : Nat) : getKeyexprAddressInTr env tree b =
        foundIn ((trPlaces env (arrayAddresses env) tree b).map KeyPlace.found) := by
      cases tree with
      | none => rfl
      | some tree => exact getKeyexprAddressInTree_eq (ih tree rfl) _
    funext i
    rw [getKeyexprAddress, htree, places]
    cases i with
    | zero => simp [foundIn, KeyPlace.found, Nat.add_comm]
    | succ i => simp [foundIn, Nat.add_comm]
  | withKey flags token key =>
    funext i
    cases i <;> rfl
  | multisig flags token k keys =>
    have hlen (b : Nat) : (arrayAddresses env keys b).length = keys.length := by
      rw [← length_map Prod.snd, map_snd_arrayAddresses]
    funext i
    simp only [getKeyexprAddress, places, foundIn, length_map, map_map,
      getElem?_map, hlen, getElem?_arrayAddresses, Option.map_map]
    split_ifs with hi
    · rw [getElem?_eq_getElem hi]
      rfl
    · rw [getElem?_eq_none (Nat.le_of_not_lt hi)]
      rfl
  | sh x ih | wsh x ih | wrapper flags token x ih =>
    funext i
    rw [getKeyexprAddress, ih, places]
  | withScript2 flags token x y hx hy =>
    funext i
    rw [getKeyexprAddress, hx, hy, orNext_foundIn, places, map_append]
  | andor flags x y z hx hy hz =>
    funext i
    rw [getKeyexprAddress, hx, hy, hz, orNext_foundIn, orNext_foundIn, places, map_append, map_append]
  | thresh flags k xs ih =>
    funext i
    rw [getKeyexprAddress, getKeyexprAddressInList_eq ih, places]
  | _ => rfl

def KeyPlace.keyexpr (place : KeyPlace) : KeyExpr × Option PolicyNode := (place.key, place.leaf)

theorem map_keyexpr_scriptsPlaces
    (h : ∀ x ∈ xs, ∀ a, (x.places env addresses a).map KeyPlace.keyexpr = x.keyexprs) (a : Nat) :
    (scriptsPlaces env addresses xs a).map KeyPlace.keyexpr = keyexprsList xs := by
  induction xs generalizing a with
  | nil => rfl
  | cons x xs ih =>
    obtain ⟨hx, hxs⟩ := forall_mem_cons.mp h
    rw [scriptsPlaces, keyexprsList, map_append, hx, ih hxs]

theorem map_keyexpr_treePlaces
    (h : ∀ x ∈ tree.leaves, ∀ a, (x.places env addresses a).map KeyPlace.keyexpr = x.keyexprs)
    (a : Nat) : (treePlaces env addresses tree a).map KeyPlace.keyexpr = keyexprsTree tree := by
  induction tree generalizing a with
  | leaf x =>
    rw [treePlaces, keyexprsTree, ← h x (by simp [PolicyTree.leaves]) (env.aligned (env.after .tree a)),
      map_map, map_map]
    rfl
  | branch l r ihl ihr =>
    obtain ⟨hl, hr⟩ := forall_mem_append.mp h
    rw [treePlaces, keyexprsTree, map_append, ihl hl, ihr hr]

theorem map_keyexpr_places (haddresses : ∀ keys a, (addresses keys a).map Prod.snd = keys)
    (policy : PolicyNode) (a : Nat) :
    (policy.places env addresses a).map KeyPlace.keyexpr = policy.keyexprs := by
  induction policy using induction generalizing a with
  | tr key tree ih =>
    have htree (b : Nat) : (trPlaces env addresses tree b).map KeyPlace.keyexpr = keyexprsTr tree := by
      cases tree with
      | none => rfl
      | some tree => exact map_keyexpr_treePlaces (ih tree rfl) _
    rw [places, map_cons, htree, keyexprs]
    rfl
  | multisig flags token k keys =>
    conv_rhs => rw [keyexprs, ← haddresses keys (env.aligned (env.after .nodeMultisig a))]
    rw [places, map_map, map_map]
    rfl
  | sh x ih | wsh x ih | wrapper flags token x ih => rw [places, ih, keyexprs]
  | withScript2 flags token x y hx hy =>
    rw [places, map_append, hx, hy, keyexprs]
  | andor flags x y z hx hy hz =>
    rw [places, map_append, map_append, hx, hy, hz, keyexprs]
  | thresh flags k xs ih =>
    rw [places, map_keyexpr_scriptsPlaces ih, keyexprs]
  | _ => rfl

end

variable {version : Nat}

theorem padded_mod (a : Nat) : padded a % 4 = 0 := by
  unfold padded
  omega

theorem padded_of_mod (h : a % 4 = 0) : padded a = a := by
  unfold padded
  omega

theorem le_padded (a : Nat) : a ≤ padded a := Nat.le_add_right _ _

theorem padded_mono {b : Nat} (h : a ≤ b) : padded a ≤ padded b := by
  unfold padded
  omega

theorem padded_aligned (env : ParseEnv) (a : Nat) : padded (env.aligned a) = padded a := by
  unfold ParseEnv.aligned
  split_ifs
  · exact padded_of_mod (padded_mod a)
  · rfl

variable (version) in
theorem padded_keyLayout (key : KeyExpr) (a : Nat) :
    padded (key.layout (.device version) a) = padded a + key.size := by
  have hmod := padded_mod a
  unfold KeyExpr.layout KeyExpr.size
  cases key.type with
  | normal | unreadable =>
    show padded (padded a + 16) = padded a + 16
    exact padded_of_mod (by omega)
  | musig keyIndexes =>
    show padded (padded (padded (padded a + 16) + 4) + 2 * keyIndexes.length) =
      padded a + (16 + 4 + 4 * ((keyIndexes.length + 1) / 2))
    generalize padded a = b at hmod
    have hrecord : padded (b + 16) = b + 16 := padded_of_mod (by omega)
    have hinfo : padded (b + 16 + 4) = b + 16 + 4 := padded_of_mod (by omega)
    rw [hrecord, hinfo, padded]
    omega

theorem padded_arrayStart (a : Nat) :
    padded ((ParseEnv.device version).aligned ((ParseEnv.device version).after .nodeMultisig a)) =
      (ParseEnv.device version).aligned ((ParseEnv.device version).after .nodeMultisig a) := by
  have hmod := padded_mod a
  have hafter : padded ((ParseEnv.device version).after .nodeMultisig a) =
      (ParseEnv.device version).after .nodeMultisig a := by
    show padded (padded a + 16) = padded a + 16
    exact padded_of_mod (by omega)
  rw [padded_aligned, ParseEnv.aligned, hafter, ite_self]

/-- The keys are where an array has them if no musig expression comes before another key. -/
theorem parsedAddresses_eq_iff (keys : List KeyExpr) {b : Nat} (ha : padded a = b) :
    (parsedAddresses (.device version) keys a).map Prod.fst =
      (arrayAddresses (.device version) keys b).map Prod.fst ↔ MusigLast keys := by
  induction keys generalizing a b with
  | nil => simp [parsedAddresses, arrayAddresses, MusigLast]
  | cons key keys ih =>
    have hnext : padded (key.layout (.device version) a) = b + key.size := by
      rw [padded_keyLayout, ha]
    rw [parsedAddresses, arrayAddresses, map_cons, map_cons, cons.injEq]
    cases keys with
    | nil => simp [parsedAddresses, arrayAddresses, MusigLast, ha]
    | cons key' keys =>
      have hlast : MusigLast (key :: key' :: keys) ↔ key.type.isMusig = false ∧ MusigLast (key' :: keys) := by
        unfold MusigLast
        rw [dropLast_cons_of_ne_nil (by simp), forall_mem_cons]
      rw [hlast]
      cases hmusig : key.type.isMusig with
      | false =>
        have hsize : key.size = 16 := KeyExpr.size_eq_of_normal hmusig
        rw [hsize] at hnext
        exact and_congr (by simp [ha]) (ih hnext)
      | true =>
        -- the list of a musig expression lies where the array has the next key
        have hsize : 16 < key.size := KeyExpr.size_of_musig hmusig
        refine iff_of_false ?_ (by simp)
        rintro ⟨-, heq⟩
        rw [parsedAddresses, arrayAddresses, map_cons, map_cons, hnext] at heq
        have hhead : b + key.size = b + 16 := (cons.inj heq).1
        omega

def PlacedAsFound (version : Nat) (node : PolicyNode) (a : Nat) : Prop :=
  (node.places (.device version) (parsedAddresses (.device version)) a).map KeyPlace.address =
    (node.places (.device version) (arrayAddresses (.device version)) a).map KeyPlace.address

theorem map_append_eq_iff {α β : Type} {f : α → β} {l1 l1' l2 l2' : List α} (hlen : l1.length = l1'.length) :
    (l1 ++ l2).map f = (l1' ++ l2').map f ↔ l1.map f = l1'.map f ∧ l2.map f = l2'.map f := by
  rw [map_append, map_append, append_eq_append_iff_of_size_eq_left (by simp [hlen])]

theorem length_places (env : ParseEnv) (node : PolicyNode) (a : Nat) :
    (node.places env (parsedAddresses env) a).length = (node.places env (arrayAddresses env) a).length := by
  rw [← length_map KeyPlace.keyexpr, map_keyexpr_places (map_snd_parsedAddresses _),
    ← map_keyexpr_places (map_snd_arrayAddresses _), length_map]

theorem length_treePlaces (env : ParseEnv) (tree : PolicyTree PolicyNode) (a : Nat) :
    (treePlaces env (parsedAddresses env) tree a).length =
      (treePlaces env (arrayAddresses env) tree a).length := by
  rw [← length_map KeyPlace.keyexpr,
    map_keyexpr_treePlaces fun x _ => map_keyexpr_places (map_snd_parsedAddresses _) x,
    ← map_keyexpr_treePlaces fun x _ => map_keyexpr_places (map_snd_arrayAddresses _) x, length_map]

theorem map_address_scriptsPlaces_iff {isTaproot : Bool}
    (h : ∀ x ∈ xs, ∀ a, PlacedAsFound version x a ↔ ∀ c ∈ x.subnodes isTaproot, MusigLast c.2.ownKeys)
    (a : Nat) :
    (scriptsPlaces (.device version) (parsedAddresses (.device version)) xs a).map KeyPlace.address =
        (scriptsPlaces (.device version) (arrayAddresses (.device version)) xs a).map KeyPlace.address ↔
      ∀ c ∈ subnodesList isTaproot xs, MusigLast c.2.ownKeys := by
  induction xs generalizing a with
  | nil => simp [scriptsPlaces, subnodesList]
  | cons x xs ih =>
    obtain ⟨hx, hxs⟩ := forall_mem_cons.mp h
    rw [scriptsPlaces, scriptsPlaces, map_append_eq_iff (length_places _ x _), ih hxs,
      subnodesList, forall_mem_append]
    exact and_congr (hx _) Iff.rfl

theorem map_address_treePlaces_iff
    (h : ∀ x ∈ tree.leaves, ∀ a, PlacedAsFound version x a ↔ ∀ c ∈ x.subnodes true, MusigLast c.2.ownKeys)
    (a : Nat) :
    (treePlaces (.device version) (parsedAddresses (.device version)) tree a).map KeyPlace.address =
        (treePlaces (.device version) (arrayAddresses (.device version)) tree a).map KeyPlace.address ↔
      ∀ c ∈ subnodesTree tree, MusigLast c.2.ownKeys := by
  induction tree generalizing a with
  | leaf x =>
    rw [treePlaces, treePlaces, map_map, map_map, subnodesTree]
    exact h x (by simp [PolicyTree.leaves]) _
  | branch l r ihl ihr =>
    obtain ⟨hl, hr⟩ := forall_mem_append.mp h
    rw [treePlaces, treePlaces, map_append_eq_iff (length_treePlaces _ l _), ihl hl, ihr hr,
      subnodesTree, forall_mem_append]

theorem placedAsFound_iff (node : PolicyNode) (isTaproot : Bool) (a : Nat) :
    PlacedAsFound version node a ↔ ∀ c ∈ node.subnodes isTaproot, MusigLast c.2.ownKeys := by
  have hnone : MusigLast [] := by simp [MusigLast]
  have hone (key : KeyExpr) : MusigLast [key] := by simp [MusigLast]
  unfold PlacedAsFound
  induction node using induction generalizing isTaproot a with
  | constant | withHash | withUint32 =>
    simp [places, subnodes, ownKeys, hnone]
  | withKey => simp [places, subnodes, ownKeys, hone]
  | tr key tree ih =>
    cases tree with
    | none =>
      simp [places, trPlaces, subnodes, subnodesOption, ownKeys, hone]
    | some tree =>
      rw [places, places, map_cons, map_cons, cons.injEq, subnodes, forall_mem_cons]
      refine and_congr (iff_of_true rfl (hone key)) ?_
      exact map_address_treePlaces_iff (fun x hx => ih tree rfl x hx true) _
  | multisig flags token k keys =>
    rw [places, places, map_map, map_map, subnodes, forall_mem_singleton]
    exact parsedAddresses_eq_iff keys (padded_arrayStart a)
  | sh x ih | wsh x ih | wrapper flags token x ih =>
    rw [places, places, subnodes, forall_mem_cons]
    exact (ih isTaproot _).trans (and_iff_right hnone).symm
  | withScript2 flags token x y hx hy =>
    rw [places, places, map_append_eq_iff (length_places _ x _), subnodes, forall_mem_cons, forall_mem_append]
    exact (and_congr (hx isTaproot _) (hy isTaproot _)).trans (and_iff_right hnone).symm
  | andor flags x y z hx hy hz =>
    rw [places, places,
      map_append_eq_iff (by rw [length_append, length_append, length_places, length_places]),
      map_append_eq_iff (length_places _ x _), subnodes, forall_mem_cons,
      forall_mem_append, forall_mem_append]
    exact (and_congr (and_congr (hx isTaproot _) (hy isTaproot _)) (hz isTaproot _)).trans
      (and_iff_right hnone).symm
  | thresh flags k xs ih =>
    rw [places, places, subnodes, forall_mem_cons,
      map_address_scriptsPlaces_iff fun x hx => ih x hx isTaproot]
    exact (and_iff_right hnone).symm

/-- The key expressions lie between two offsets one after the other, each with all that belongs to it. -/
def Spaced : Nat → List KeyPlace → Nat → Prop
  | lo, [], hi => lo ≤ hi
  | lo, place :: places, hi =>
    lo ≤ place.address ∧ Spaced (place.address + place.key.size) places hi

namespace Spaced

variable {lo lo' mid hi : Nat} {places places' : List KeyPlace}

theorem mono (h : Spaced lo places hi) (hlo : lo' ≤ lo) : Spaced lo' places hi := by
  cases places with
  | nil => exact hlo.trans h
  | cons place places => exact ⟨hlo.trans h.1, h.2⟩

theorem append (h : Spaced lo places mid) (h' : Spaced mid places' hi) :
    Spaced lo (places ++ places') hi := by
  induction places generalizing lo with
  | nil => exact h'.mono h
  | cons place places ih => exact ⟨h.1, ih h.2⟩

theorem map_leaf (h : Spaced lo places hi) (leaf : Option PolicyNode) :
    Spaced lo (places.map fun place => { place with leaf }) hi := by
  induction places generalizing lo with
  | nil => exact h
  | cons place places ih => exact ⟨h.1, ih h.2⟩

theorem length_le (h : Spaced lo places hi) : lo + 16 * places.length ≤ hi := by
  induction places generalizing lo with
  | nil => exact h
  | cons place places ih =>
    have hsize : 16 ≤ place.key.size := place.key.size_ge
    have hrest := ih h.2
    have hlo := h.1
    rw [length_cons]
    omega

end Spaced

theorem padded_le_after (env : ParseEnv) (kind : PolicyStruct) (a : Nat) :
    padded a ≤ padded (env.after kind a) :=
  (Nat.le_add_right _ _).trans (le_padded _)

theorem padded_le_child (env : ParseEnv) (kind : PolicyStruct) (a : Nat) :
    padded a ≤ padded (env.aligned (env.after kind a)) := by
  rw [padded_aligned]
  exact padded_le_after env kind a

theorem spaced_parsedAddresses (keys : List KeyExpr) (a : Nat) :
    Spaced (padded a) ((parsedAddresses (.device version) keys a).map fun (b, key) => ⟨b, key, none⟩)
      (padded (keysLayout (.device version) keys a)) := by
  induction keys generalizing a with
  | nil => exact le_rfl
  | cons key keys ih =>
    refine ⟨le_rfl, ?_⟩
    show Spaced (padded a + key.size) _ _
    rw [← padded_keyLayout version]
    exact ih _

theorem spaced_scriptsPlaces (h : ∀ x ∈ xs, ∀ a, Spaced (padded a)
      (x.places (.device version) (parsedAddresses (.device version)) a)
      (padded (x.layout (.device version) a))) (a : Nat) :
    Spaced (padded a) (scriptsPlaces (.device version) (parsedAddresses (.device version)) xs a)
      (padded (scriptsLayout (.device version) xs a)) := by
  induction xs generalizing a with
  | nil => exact le_rfl
  | cons x xs ih =>
    obtain ⟨hx, hxs⟩ := forall_mem_cons.mp h
    rw [scriptsPlaces, scriptsLayout]
    exact ((hx _).mono (padded_le_child _ _ a)).append (ih hxs _)

theorem spaced_treePlaces (h : ∀ x ∈ tree.leaves, ∀ a, Spaced (padded a)
      (x.places (.device version) (parsedAddresses (.device version)) a)
      (padded (x.layout (.device version) a))) (a : Nat) :
    Spaced (padded a) (treePlaces (.device version) (parsedAddresses (.device version)) tree a)
      (padded (treeLayout (.device version) tree a)) := by
  induction tree generalizing a with
  | leaf x =>
    rw [treePlaces, treeLayout]
    exact ((h x (by simp [PolicyTree.leaves]) _).map_leaf _).mono (padded_le_child _ _ a)
  | branch l r ihl ihr =>
    obtain ⟨hl, hr⟩ := forall_mem_append.mp h
    rw [treePlaces, treeLayout]
    refine ((ihl hl _).mono (padded_le_child _ _ a)).append ?_
    exact (ihr hr _).mono (padded_aligned _ _).ge

variable (version) in
/-- The key expressions of a node lie in the part of the buffer that the node takes. -/
theorem spaced_places (node : PolicyNode) (a : Nat) :
    Spaced (padded a) (node.places (.device version) (parsedAddresses (.device version)) a)
      (padded (node.layout (.device version) a)) := by
  induction node using induction generalizing a with
  | constant | withHash | withUint32 =>
    rw [places, layout]
    exact padded_le_after _ _ a
  | withKey flags token key =>
    rw [places, layout]
    exact ⟨padded_le_after _ _ a, (padded_keyLayout _ key _).ge⟩
  | tr key tree ih =>
    rw [places, layout]
    refine ⟨padded_le_after _ _ a, ?_⟩
    show Spaced (padded _ + key.size) _ _
    rw [← padded_keyLayout version]
    cases tree with
    | none => exact le_rfl
    | some tree => exact (spaced_treePlaces (ih tree rfl) _).mono (padded_aligned _ _).ge
  | multisig flags token k keys =>
    rw [places, layout]
    exact (spaced_parsedAddresses keys _).mono (padded_le_child _ _ a)
  | sh x ih | wsh x ih =>
    rw [places, layout]
    exact (ih _).mono (padded_le_child _ _ a)
  | wrapper flags token x ih =>
    rw [places, layout]
    exact (ih _).mono (padded_le_after _ _ a)
  | withScript2 flags token x y hx hy =>
    rw [places, layout]
    refine ((hx _).mono (padded_le_child _ _ a)).append ?_
    exact (hy _).mono (padded_aligned _ _).ge
  | andor flags x y z hx hy hz =>
    rw [places, layout]
    have hfirst := (hx _).mono (padded_le_child (.device version) .nodeWithScript3 a)
    have hsecond := hfirst.append ((hy _).mono (padded_aligned (.device version) _).ge)
    exact hsecond.append ((hz _).mono (padded_aligned _ _).ge)
  | thresh flags k xs ih =>
    rw [places, layout]
    exact (spaced_scriptsPlaces ih _).mono (padded_le_after _ _ a)

def writePlaces (places : List KeyPlace) (m : Memory) : Memory :=
  places.foldl (fun m place => writeKeyexpr place.address place.key m) m

theorem writePlaces_apply_lt {lo hi : Nat} {places : List KeyPlace} (h : Spaced lo places hi)
    (m : Memory) {i : Nat} (hi : i < lo) : writePlaces places m i = m i := by
  induction places generalizing lo m with
  | nil => rfl
  | cons place places ih =>
    have hplace : i < place.address := hi.trans_le h.1
    show writePlaces places (writeKeyexpr place.address place.key m) i = m i
    rw [ih h.2 _ (by omega), writeKeyexpr_apply_lt place.key m hplace]

theorem keyAt_writePlaces {lo hi : Nat} {places : List KeyPlace} (h : Spaced lo places hi) (m : Memory) :
    ∀ place ∈ places, KeyAt (writePlaces places m) place.address place.key := by
  induction places generalizing lo m with
  | nil => simp
  | cons place places ih =>
    rw [forall_mem_cons]
    refine ⟨?_, ih h.2 (writeKeyexpr place.address place.key m)⟩
    apply (keyAt_writeKeyexpr place.address place.key m).congr
    intro i hi
    exact writePlaces_apply_lt h.2 _ hi

variable {template : Bytes} {policy : PolicyNode}

theorem length_keyexprs_le (h : parseDescriptorTemplate (.device version) template = some policy) :
    policy.keyexprs.length ≤ 56 := by
  have hfit : policy.layout (.device version) 0 ≤ 896 :=
    (parseDescriptorTemplate_text (by decide : 32 ≤ 32) h).2
  have hend : padded (policy.layout (.device version) 0) ≤ 896 := padded_mono hfit
  have hlen := (spaced_places version policy 0).length_le
  rw [← length_map KeyPlace.keyexpr, map_keyexpr_places (map_snd_parsedAddresses _)] at hlen
  omega

theorem getElem?_places (env : ParseEnv) {addresses : List KeyExpr → Nat → List (Nat × KeyExpr)}
    (haddresses : ∀ keys a, (addresses keys a).map Prod.snd = keys) {i : Nat} {key : KeyExpr}
    {leaf : Option PolicyNode} (hi : policy.keyexprs[i]? = some (key, leaf)) :
    ∃ a, (policy.places env addresses 0)[i]? = some ⟨a, key, leaf⟩ := by
  rw [← map_keyexpr_places haddresses policy 0, getElem?_map, Option.map_eq_some_iff] at hi
  obtain ⟨⟨a, _, _⟩, hplace, heq⟩ := hi
  obtain ⟨rfl, rfl⟩ := Prod.mk.inj heq
  exact ⟨a, hplace⟩

/-- **The key expressions are enumerated as they were parsed if no musig expression comes before another
key of its node.** -/
theorem enumeratedAsParsed_iff {m : Memory}
    (h : parseDescriptorTemplate (.device version) template = some policy)
    (hm : ∀ place ∈ policy.parsedPlaces (.device version), KeyAt m place.address place.key) :
    EnumeratedAsParsed (.device version) m policy ↔ policy.MusigLast := by
  obtain ⟨hnumbers, -, hfits⟩ := parseDescriptorTemplate_numbers h
  have hcount := length_keyexprs_le h
  have hsearch (i : Nat) : getKeyexprAddress (.device version) policy 0 i =
      foundIn ((policy.places (.device version) (arrayAddresses (.device version)) 0).map
        KeyPlace.found) i := by
    rw [getKeyexprAddress_eq]
  have hlen : (policy.places (.device version) (arrayAddresses (.device version)) 0).length =
      policy.keyexprs.length := by
    rw [← length_map KeyPlace.keyexpr, map_keyexpr_places (map_snd_arrayAddresses _)]
  show _ ↔ ∀ c ∈ policy.subnodes false, MusigLast c.2.ownKeys
  rw [← @placedAsFound_iff version policy false 0]
  constructor
  · intro hall
    apply ext_getElem?
    intro i
    cases hi : policy.keyexprs[i]? with
    | none =>
      have hge := getElem?_eq_none_iff.mp hi
      rw [getElem?_eq_none (by rw [length_map, length_places, hlen]; exact hge),
        getElem?_eq_none (by rw [length_map, hlen]; exact hge)]
    | some found =>
      obtain ⟨a, hfound, haddress, -, -⟩ := hall i found.1 found.2 hi
      obtain ⟨b, hplace⟩ := getElem?_places (.device version) (map_snd_arrayAddresses (.device version)) hi
      rw [hsearch, foundIn, getElem?_map, hplace] at hfound
      obtain rfl : b = a := congrArg Prod.fst (Option.some.inj (congrArg Prod.snd hfound))
      rw [getElem?_map, getElem?_map, hplace]
      exact haddress
  · intro hplaced i key leaf hi
    obtain ⟨a, hparsed⟩ := getElem?_places (.device version) (map_snd_parsedAddresses (.device version)) hi
    obtain ⟨b, harray⟩ := getElem?_places (.device version) (map_snd_arrayAddresses (.device version)) hi
    have haddress := congrArg (·[i]?) hplaced
    simp only [getElem?_map, hparsed, harray, Option.map_some] at haddress
    obtain rfl : a = b := Option.some.inj haddress
    have hkey : policy.keys[i]? = some key := by
      rw [PolicyNode.keys, getElem?_map, hi]
      rfl
    have hat := hm _ (mem_of_getElem? hparsed)
    refine ⟨a, ?_, by rw [parsedPlaces, hparsed]; rfl,
      readKeyRecord_of_keyAt hat (hfits key (mem_of_getElem? hkey)), ?_⟩
    · rw [hsearch, foundIn, length_map, hlen, getElem?_map, harray]
      rfl
    · have hlt : i < policy.keyexprs.length := (List.getElem?_eq_some_iff.mp hi).1
      have hnumber : key.keyexprIndex.toNat = i := by
        rw [hnumbers.getElem hkey, UInt16.zero_add, UInt16.toNat_ofNat']
        omega
      have hread := readU16_of_read hat.keyexprIndex key.keyexprIndex.toNat_lt
      exact hread.trans hnumber

theorem enumeratedAsParsed_iff_musigLast : ∃ policy, parseDescriptorTemplate (.device 2)
        (text "tr(@0/**,multi_a(1,@3/**,musig(@1,@2)/**))") = some policy ∧
      EnumeratedAsParsed (.device 2) (writePlaces (policy.parsedPlaces (.device 2)) fun _ => 0) policy := by
  have hrun : (parseDescriptorTemplate (.device 2) (text "tr(@0/**,multi_a(1,@3/**,musig(@1,@2)/**))")).any
      fun policy => policy.MusigLast := by decide +kernel
  obtain ⟨policy, hparse, hlast⟩ := (Option.any_eq_true _ _).mp hrun
  have hplaced := keyAt_writePlaces (spaced_places 2 policy 0) fun _ => 0
  exact ⟨policy, hparse, (enumeratedAsParsed_iff hparse hplaced).mpr (of_decide_eq_true hlast)⟩

/-- After a musig expression its list is read as a record, with the index of the internal key. -/
theorem not_enumeratedAsParsed_musigFirst : ∃ policy, parseDescriptorTemplate (.device 2)
        (text "tr(@0/**,multi_a(1,musig(@1,@2)/**,@3/**))") = some policy ∧
      (∀ place ∈ policy.parsedPlaces (.device 2),
        KeyAt (writePlaces (policy.parsedPlaces (.device 2)) fun _ => 0) place.address place.key) ∧
      ¬EnumeratedAsParsed (.device 2) (writePlaces (policy.parsedPlaces (.device 2)) fun _ => 0) policy := by
  have hrun : (parseDescriptorTemplate (.device 2)
      (text "tr(@0/**,multi_a(1,musig(@1,@2)/**,@3/**))")).map (fun policy =>
        (policy.keyexprs[2]?.map fun found => found.1.record.index,
          (getKeyexprAddress (.device 2) policy 0 2).2.map fun found =>
            (readKeyRecord (writePlaces (policy.parsedPlaces (.device 2)) fun _ => 0) found.1).index)) =
      some (some 3, some 0) := by decide +kernel
  obtain ⟨policy, hparse, heq⟩ := Option.map_eq_some_iff.mp hrun
  obtain ⟨hkey, hfound⟩ := Prod.mk.inj heq
  obtain ⟨⟨key, leaf⟩, hi, hindex⟩ := Option.map_eq_some_iff.mp hkey
  refine ⟨policy, hparse, keyAt_writePlaces (spaced_places 2 policy 0) _, fun hall => ?_⟩
  obtain ⟨a, hget, -, hrecord, -⟩ := hall 2 key leaf hi
  rw [hget] at hfound
  have hread := Option.some.inj hfound
  dsimp only at hread
  rw [hrecord, hindex] at hread
  cases hread

end LedgerBabylon
