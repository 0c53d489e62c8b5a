import LedgerBabylon.Common.PolicyParser
import LedgerBabylon.Lib.Endian
import LedgerBabylon.Lib.Memory

/-!
# Key expressions in memory

The parser writes the key expressions of a node one after the other, and the rest of the application
reads them as an array of records of 16 bytes. A musig expression has more to it than its record: the
list of its keys lies directly behind it, where an array has the next record. So an array is read as it
was written only if a musig expression comes last.
-/

namespace LedgerBabylon

open Endian List

variable {key : KeyExpr} {m : Memory} {a i : Nat} {keys : List KeyExpr}

def keyexprSize : Nat := 16

/-- The memory of a key expression: its record and, for musig, the number of keys, a relative pointer
and the keys, up to a multiple of four. -/
def KeyExpr.size (key : KeyExpr) : Nat :=
  match key.type with
  | .normal _ | .unreadable => keyexprSize
  | .musig keyIndexes => keyexprSize + 4 + 4 * ((keyIndexes.length + 1) / 2)

def musigInfoOffset : Nat := 6

/-- What `parse_keyexpr` writes from the address of a record on. One byte before and two bytes after the
index of the key are not written. -/
def writeKeyexpr (a : Nat) (key : KeyExpr) (m : Memory) : Memory :=
  let m := match key.type with
    | .normal keyIndex => (m.write (a + 8) [0]).write (a + 10) (leBytes 2 keyIndex)
    | .unreadable => (m.write (a + 8) [2]).write (a + 10) (leBytes 2 0)
    | .musig keyIndexes =>
      ((((m.write (a + 8) [1]).write (a + 20) (keyIndexes.flatMap (leBytes 2 ·))).write (a + 16)
        (leBytes 2 keyIndexes.length)).write (a + 18) (leBytes 2 2)).write (a + 10)
        (leBytes 2 musigInfoOffset)
  ((m.write a (leBytes 4 key.numFirst.toNat)).write (a + 4) (leBytes 4 key.numSecond.toNat)).write
    (a + 12) (leBytes 2 key.keyexprIndex.toNat)

def writeKeyexprs : Nat → List KeyExpr → Memory → Memory
  | _, [], m => m
  | a, key :: keys, m => writeKeyexprs (a + key.size) keys (writeKeyexpr a key m)

/-- A record as it is read, with the index of the key or, for musig, the relative pointer, and the keys
that the pointer leads to. -/
structure KeyRecord where
  numFirst : UInt32
  numSecond : UInt32
  type : UInt8
  index : Nat
  keyexprIndex : UInt16
  keys : Option (List Nat)
  deriving DecidableEq

def KeyRecord.isNormal (r : KeyRecord) : Bool := r.type = 0

def KeyRecord.isMusig (r : KeyRecord) : Bool := r.type = 1

def readU16 (m : Memory) (a : Nat) : Nat := leNat (m.read a 2)

/-- The keys behind a relative pointer. There are none if a pointer is null, or if they are too many for
the arrays that they are copied to. -/
def readMusigKeys (m : Memory) (a : Nat) : Option (List Nat) :=
  let info := a + readU16 m a
  let keyIndexes := info + 2 + readU16 m (info + 2)
  if readU16 m a = 0 ∨ readU16 m (info + 2) = 0 ∨ maxPubkeysPerMusig < readU16 m info then none
  else some ((range (readU16 m info)).map fun i => readU16 m (keyIndexes + 2 * i))

def readKeyRecord (m : Memory) (a : Nat) : KeyRecord where
  numFirst := UInt32.ofNat (leNat (m.read a 4))
  numSecond := UInt32.ofNat (leNat (m.read (a + 4) 4))
  type := m (a + 8)
  index := readU16 m (a + 10)
  keyexprIndex := UInt16.ofNat (readU16 m (a + 12))
  keys := if m (a + 8) = 1 then readMusigKeys m (a + 10) else none

def readKeyRecords (m : Memory) (n : Nat) : List KeyRecord :=
  (range n).map fun i => readKeyRecord m (keyexprSize * i)

def keyRecordsOf (around : Memory) (keys : List KeyExpr) : List KeyRecord :=
  readKeyRecords (writeKeyexprs 0 keys around) keys.length

def KeyExpr.record (key : KeyExpr) : KeyRecord where
  numFirst := key.numFirst
  numSecond := key.numSecond
  type := match key.type with
    | .normal _ => 0
    | .musig _ => 1
    | .unreadable => 2
  index := match key.type with
    | .normal keyIndex => keyIndex
    | .musig _ => musigInfoOffset
    | .unreadable => 0
  keyexprIndex := key.keyexprIndex
  keys := match key.type with
    | .normal _ | .unreadable => none
    | .musig keyIndexes => some keyIndexes

/-- The ranges of the fields, and of the number of keys that the parser allows in a musig
expression. -/
def KeyExpressionType.Fits : KeyExpressionType → Prop
  | .normal keyIndex => keyIndex < 2 ^ 16
  | .musig keyIndexes => keyIndexes.length ≤ maxPubkeysPerMusig ∧ ∀ i ∈ keyIndexes, i < 2 ^ 16
  | .unreadable => False

instance : DecidablePred KeyExpressionType.Fits
  | .normal keyIndex => inferInstanceAs (Decidable (keyIndex < 2 ^ 16))
  | .musig keyIndexes =>
    inferInstanceAs (Decidable (keyIndexes.length ≤ maxPubkeysPerMusig ∧ ∀ i ∈ keyIndexes, i < 2 ^ 16))
  | .unreadable => inferInstanceAs (Decidable False)

def KeyExpressionType.isMusig : KeyExpressionType → Bool
  | .normal _ | .unreadable => false
  | .musig _ => true

def MusigLast (keys : List KeyExpr) : Prop := ∀ key ∈ keys.dropLast, key.type.isMusig = false

instance : DecidablePred MusigLast := fun keys =>
  inferInstanceAs (Decidable (∀ key ∈ keys.dropLast, key.type.isMusig = false))

/-- No node has a musig expression before another key. -/
def PolicyNode.MusigLast (policy : PolicyNode) : Prop :=
  policy.AllNodes fun node => LedgerBabylon.MusigLast node.ownKeys

instance : DecidablePred PolicyNode.MusigLast := fun policy =>
  inferInstanceAs (Decidable (policy.AllNodes fun node => LedgerBabylon.MusigLast node.ownKeys))

structure KeyAt (m : Memory) (a : Nat) (key : KeyExpr) : Prop where
  numFirst : m.read a 4 = leBytes 4 key.numFirst.toNat
  numSecond : m.read (a + 4) 4 = leBytes 4 key.numSecond.toNat
  type : m.read (a + 8) 1 = [key.record.type]
  index : m.read (a + 10) 2 = leBytes 2 key.record.index
  keyexprIndex : m.read (a + 12) 2 = leBytes 2 key.keyexprIndex.toNat
  musig : ∀ keyIndexes, key.type = .musig keyIndexes →
    m.read (a + 16) 2 = leBytes 2 keyIndexes.length ∧ m.read (a + 18) 2 = leBytes 2 2 ∧
    m.read (a + 20) (2 * keyIndexes.length) = keyIndexes.flatMap (leBytes 2 ·)

theorem length_flatMap_leBytes (is : List Nat) : (is.flatMap (leBytes 2 ·)).length = 2 * is.length := by
  induction is with
  | nil => rfl
  | cons i is ih =>
    rw [flatMap_cons, length_append, length_leBytes, ih, length_cons]
    omega

theorem keyAt_writeKeyexpr (a : Nat) (key : KeyExpr) (m : Memory) : KeyAt (writeKeyexpr a key m) a key := by
  -- the fields do not overlap, so each is read as it was written
  obtain ⟨numFirst, numSecond, type, keyexprIndex⟩ := key
  cases type with
  | normal | unreadable =>
    constructor <;>
      simp [writeKeyexpr, KeyExpr.record, Memory.read_write_same, Memory.read_write_outside]
  | musig keyIndexes =>
    have hkeys (m : Memory) : (m.write (a + 20) (keyIndexes.flatMap (leBytes 2 ·))).read (a + 20)
        (2 * keyIndexes.length) = keyIndexes.flatMap (leBytes 2 ·) :=
      Memory.read_write_same m (length_flatMap_leBytes keyIndexes)
    constructor <;>
      simp [writeKeyexpr, KeyExpr.record, Memory.read_write_same, Memory.read_write_outside, hkeys]

theorem KeyExpr.size_eq_of_normal (h : key.type.isMusig = false) : key.size = keyexprSize := by
  unfold KeyExpr.size
  cases htype : key.type with
  | normal | unreadable => rfl
  | musig => simp [htype, KeyExpressionType.isMusig] at h

theorem KeyExpr.size_of_musig (h : key.type.isMusig) : keyexprSize < key.size := by
  unfold KeyExpr.size
  cases htype : key.type with
  | normal | unreadable => simp [htype, KeyExpressionType.isMusig] at h
  | musig => exact Nat.lt_of_lt_of_le (Nat.lt_add_of_pos_right (by decide)) (Nat.le_add_right _ _)

theorem KeyExpr.size_ge (key : KeyExpr) : keyexprSize ≤ key.size := by
  unfold KeyExpr.size
  split <;> omega

theorem KeyAt.congr {m' : Memory} (h : KeyAt m a key)
    (hm : ∀ i, i < a + key.size → m' i = m i) : KeyAt m' a key := by
  have hsize : 16 ≤ key.size := key.size_ge
  have hread {b n : Nat} (hb : b + n ≤ a + key.size) : m'.read b n = m.read b n :=
    Memory.read_congr _ fun i hi => hm _ (by omega)
  constructor
  case numFirst => rw [hread (by omega), h.numFirst]
  case numSecond => rw [hread (by omega), h.numSecond]
  case type => rw [hread (by omega), h.type]
  case index => rw [hread (by omega), h.index]
  case keyexprIndex => rw [hread (by omega), h.keyexprIndex]
  case musig =>
    intro keyIndexes htype
    have hmusig : key.size = 16 + 4 + 4 * ((keyIndexes.length + 1) / 2) := by
      rw [KeyExpr.size, htype]
      rfl
    rw [hread (by omega), hread (by omega), hread (by omega)]
    exact h.musig keyIndexes htype

theorem writeKeyexpr_apply_lt (key : KeyExpr) (m : Memory) (hi : i < a) : writeKeyexpr a key m i = m i := by
  have hlt (n : Nat) : i < a + n := by omega
  unfold writeKeyexpr
  cases key.type <;> simp [Memory.write_apply_lt, hi, hlt]

theorem writeKeyexprs_apply_lt (keys : List KeyExpr) (m : Memory) (hi : i < a) :
    writeKeyexprs a keys m i = m i := by
  induction keys generalizing a m with
  | nil => rfl
  | cons key keys ih =>
    rw [writeKeyexprs, ih _ (by omega), writeKeyexpr_apply_lt key m hi]

theorem keyAt_writeKeyexprs (hlast : MusigLast keys) (a : Nat) (m : Memory)
    (hi : keys[i]? = some key) : KeyAt (writeKeyexprs a keys m) (a + keyexprSize * i) key := by
  induction keys generalizing a m i with
  | nil => simp at hi
  | cons first keys ih =>
    cases i with
    | zero =>
      obtain rfl : first = key := by simpa using hi
      apply (keyAt_writeKeyexpr a first m).congr
      intro j hj
      exact writeKeyexprs_apply_lt keys _ hj
    | succ i =>
      have hnext : keys[i]? = some key := by simpa using hi
      have hne : keys ≠ [] := by
        rintro rfl
        simp at hnext
      have hsize : first.size = keyexprSize := by
        apply KeyExpr.size_eq_of_normal
        apply hlast first
        rw [dropLast_cons_of_ne_nil hne]
        exact mem_cons_self
      have hrest : MusigLast keys := by
        intro k hk
        apply hlast k
        rw [dropLast_cons_of_ne_nil hne]
        exact mem_cons_of_mem _ hk
      have haddr : a + keyexprSize * (i + 1) = a + first.size + keyexprSize * i := by
        rw [hsize, Nat.mul_succ]
        omega
      rw [haddr]
      exact ih hrest (a + first.size) (writeKeyexpr a first m) hnext

theorem readU16_of_read {n : Nat} (h : m.read a 2 = leBytes 2 n) (hn : n < 2 ^ 16) : readU16 m a = n := by
  rw [readU16, h, leNat_leBytes]
  exact Nat.mod_eq_of_lt hn

theorem map_readU16_of_read {is : List Nat}
    (h : m.read a (2 * is.length) = is.flatMap (leBytes 2 ·)) (his : ∀ i ∈ is, i < 2 ^ 16) :
    ((range is.length).map fun i => readU16 m (a + 2 * i)) = is := by
  induction is generalizing a with
  | nil => rfl
  | cons i is ih =>
    have hlen : 2 * (i :: is).length = 2 + 2 * is.length := by
      rw [length_cons]
      omega
    rw [hlen, Memory.read_add, flatMap_cons] at h
    obtain ⟨hfirst, hrest⟩ := append_inj h (by simp)
    have htail : ((range is.length).map fun j => readU16 m (a + 2 + 2 * j)) = is :=
      ih hrest fun j hj => his j (mem_cons_of_mem _ hj)
    rw [length_cons, range_succ_eq_map, map_cons, map_map,
      Nat.mul_zero, Nat.add_zero, readU16_of_read hfirst (his i mem_cons_self)]
    conv_rhs => rw [← htail]
    congr 1
    apply map_congr_left
    intro j _
    simp only [Function.comp, Nat.mul_succ]
    congr 1
    omega

theorem readKeyRecord_of_keyAt (h : KeyAt m a key)
    (hfits : key.type.Fits) : readKeyRecord m a = key.record := by
  have hnum {b : Nat} {n : UInt32} (hread : m.read b 4 = leBytes 4 n.toNat) :
      UInt32.ofNat (leNat (m.read b 4)) = n := by
    have hmod : n.toNat % 256 ^ 4 = n.toNat := Nat.mod_eq_of_lt n.toNat_lt
    rw [hread, leNat_leBytes, hmod, UInt32.ofNat_toNat]
  have htype : m (a + 8) = key.record.type := by
    have hbyte := h.type
    simpa [Memory.read] using hbyte
  have hkeyexprIndex : UInt16.ofNat (readU16 m (a + 12)) = key.keyexprIndex := by
    rw [readU16_of_read h.keyexprIndex key.keyexprIndex.toNat_lt, UInt16.ofNat_toNat]
  obtain ⟨numFirst, numSecond, type, keyexprIndex⟩ := key
  unfold readKeyRecord
  rw [hnum h.numFirst, hnum h.numSecond, htype, hkeyexprIndex]
  cases type with
  | unreadable => exact hfits.elim
  | normal keyIndex =>
    have hindex : readU16 m (a + 10) = keyIndex := readU16_of_read h.index hfits
    rw [hindex]
    rfl
  | musig keyIndexes =>
    obtain ⟨hlen, hkeys⟩ := hfits
    obtain ⟨hn, hoffset, hread⟩ := h.musig keyIndexes rfl
    have hmax : maxPubkeysPerMusig = 5 := rfl
    have hindex : readU16 m (a + 10) = 6 := readU16_of_read h.index (by decide)
    have hsix : a + 10 + 6 = a + 16 := by omega
    have hn : readU16 m (a + 16) = keyIndexes.length := readU16_of_read hn (by omega)
    have hoffset : readU16 m (a + 18) = 2 := readU16_of_read hoffset (by decide)
    have hmusig : readMusigKeys m (a + 10) = some keyIndexes := by
      have hall := map_readU16_of_read hread hkeys
      simp only [readMusigKeys, hindex, hsix, hn, hoffset]
      rw [if_neg (by omega)]
      exact congrArg some hall
    simp only [KeyExpr.record, hindex, hmusig]
    rfl

theorem keyRecordsOf_eq (hlast : MusigLast keys) (hfits : ∀ key ∈ keys, key.type.Fits) (around : Memory) :
    keyRecordsOf around keys = keys.map KeyExpr.record := by
  unfold keyRecordsOf readKeyRecords
  apply ext_getElem?
  intro i
  rw [getElem?_map, getElem?_map]
  cases hi : keys[i]? with
  | none =>
    have hge := getElem?_eq_none_iff.mp hi
    rw [getElem?_eq_none (by simpa using hge)]
    rfl
  | some key =>
    obtain ⟨hlt, -⟩ := List.getElem?_eq_some_iff.mp hi
    have hkey := keyAt_writeKeyexprs hlast 0 around hi
    rw [Nat.zero_add] at hkey
    rw [getElem?_range hlt, Option.map_some, Option.map_some,
      readKeyRecord_of_keyAt hkey (hfits key (mem_of_getElem? hi))]

/-- The key expression that the application takes a record for. -/
def KeyRecord.keyExpr (r : KeyRecord) : KeyExpr where
  numFirst := r.numFirst
  numSecond := r.numSecond
  type := if r.isNormal then .normal r.index else (r.keys.map .musig).getD .unreadable
  keyexprIndex := r.keyexprIndex

/-- The key expressions of a node after they were written to memory and read back. -/
def readKeys (around : Memory) (keys : List KeyExpr) : List KeyExpr :=
  (keyRecordsOf around keys).map KeyRecord.keyExpr

@[simp] theorem length_readKeys (around : Memory) (keys : List KeyExpr) :
    (readKeys around keys).length = keys.length := by
  simp [readKeys, keyRecordsOf, readKeyRecords]

theorem keyExpr_record (hfits : key.type.Fits) : key.record.keyExpr = key := by
  obtain ⟨numFirst, numSecond, type, keyexprIndex⟩ := key
  cases type with
  | normal | musig => rfl
  | unreadable => exact hfits.elim

theorem readKeys_eq (hlast : MusigLast keys)
    (hfits : ∀ key ∈ keys, key.type.Fits) (around : Memory) : readKeys around keys = keys := by
  rw [readKeys, keyRecordsOf_eq hlast hfits, map_map]
  conv_rhs => rw [← map_id keys]
  exact map_congr_left fun key hkey => keyExpr_record (hfits key hkey)

namespace PolicyNode

variable (around : List KeyExpr → Memory) {policy : PolicyNode} {isTaproot : Bool}

mutual

/-- A template as the application reads it, where `around` is in memory near the keys of a node. Only
the keys of a multisig are an array. -/
def asRead : PolicyNode → PolicyNode
  | .sh script => .sh script.asRead
  | .wsh script => .wsh script.asRead
  | .tr key tree => .tr key (asReadOption tree)
  | .constant flags token => .constant flags token
  | .withHash flags token h => .withHash flags token h
  | .withKey flags token key => .withKey flags token key
  | .withUint32 flags token n => .withUint32 flags token n
  | .multisig flags token k keys => .multisig flags token k (readKeys (around keys) keys)
  | .andor flags x y z => .andor flags x.asRead y.asRead z.asRead
  | .withScript2 flags token x y => .withScript2 flags token x.asRead y.asRead
  | .thresh flags k scripts => .thresh flags k (asReadList scripts)
  | .wrapper flags token x => .wrapper flags token x.asRead

def asReadList : List PolicyNode → List PolicyNode
  | [] => []
  | x :: xs => x.asRead :: asReadList xs

def asReadTree : PolicyTree PolicyNode → PolicyTree PolicyNode
  | .leaf script => .leaf script.asRead
  | .branch l r => .branch (asReadTree l) (asReadTree r)

def asReadOption : Option (PolicyTree PolicyNode) → Option (PolicyTree PolicyNode)
  | none => none
  | some tree => some (asReadTree tree)

end

/-- The nodes of a template as it is read are those of the template, as they are read. -/
theorem subnodes_asRead (isTaproot : Bool) (policy : PolicyNode) : (policy.asRead around).subnodes isTaproot =
      (policy.subnodes isTaproot).map fun c => (c.1, c.2.asRead around) := by
  have hlist {isTaproot : Bool} {xs : List PolicyNode} (h : ∀ x ∈ xs, (x.asRead around).subnodes isTaproot =
        (x.subnodes isTaproot).map fun c => (c.1, c.2.asRead around)) :
      subnodesList isTaproot (asReadList around xs) =
        (subnodesList isTaproot xs).map fun c => (c.1, c.2.asRead around) := by
    induction xs with
    | nil => rfl
    | cons x xs ih =>
      obtain ⟨hx, hxs⟩ := forall_mem_cons.mp h
      rw [asReadList, subnodesList, subnodesList, map_append, hx, ih hxs]
  have htree {tree : PolicyTree PolicyNode} (h : ∀ x ∈ tree.leaves, (x.asRead around).subnodes true =
        (x.subnodes true).map fun c => (c.1, c.2.asRead around)) :
      subnodesTree (asReadTree around tree) = (subnodesTree tree).map fun c => (c.1, c.2.asRead around) := by
    induction tree with
    | leaf x => exact h x mem_cons_self
    | branch l r ihl ihr =>
      rw [PolicyTree.leaves, forall_mem_append] at h
      rw [asReadTree, subnodesTree, subnodesTree, map_append, ihl h.1, ihr h.2]
  induction policy using PolicyNode.induction generalizing isTaproot with
  | tr key tree ih =>
    cases tree with
    | none => rfl
    | some tree => exact congrArg (_ :: ·) (htree fun x hx => ih tree rfl x hx true)
  | thresh flags k xs ih => exact congrArg (_ :: ·) (hlist fun x hx => ih x hx isTaproot)
  | sh x hx | wsh x hx | wrapper _ _ x hx => exact congrArg (_ :: ·) (hx isTaproot)
  | andor flags x y z hx hy hz => simp [asRead, subnodes, hx, hy, hz]
  | withScript2 flags token x y hx hy => simp [asRead, subnodes, hx, hy]
  | _ => rfl

/-- A template is read as it was written if no node has a musig expression before another key. -/
theorem asRead_eq (h : ∀ c ∈ policy.subnodes isTaproot,
    LedgerBabylon.MusigLast c.2.ownKeys ∧ ∀ key ∈ c.2.ownKeys, key.type.Fits) :
    policy.asRead around = policy := by
  have hlist {xs : List PolicyNode} (h : ∀ x ∈ xs, x.asRead around = x) : asReadList around xs = xs := by
    induction xs with
    | nil => rfl
    | cons x xs ih =>
      obtain ⟨hx, hxs⟩ := forall_mem_cons.mp h
      rw [asReadList, hx, ih hxs]
  have htree {tree : PolicyTree PolicyNode} (h : ∀ x ∈ tree.leaves, x.asRead around = x) :
      asReadTree around tree = tree := by
    induction tree with
    | leaf x => rw [asReadTree, h x mem_cons_self]
    | branch l r ihl ihr =>
      rw [PolicyTree.leaves, forall_mem_append] at h
      rw [asReadTree, ihl h.1, ihr h.2]
  induction policy using PolicyNode.induction generalizing isTaproot with
  | tr key tree ih =>
    cases tree with
    | none => rfl
    | some tree =>
      have htree := htree fun x hx => ih tree rfl x hx fun c hc =>
        h c (mem_cons_of_mem _ (mem_subnodesTree.mpr ⟨x, hx, hc⟩))
      rw [asRead, asReadOption, htree]
  | thresh flags k xs ih =>
    rw [asRead, hlist fun x hx => ih x hx fun c hc =>
      h c (mem_cons_of_mem _ (mem_subnodesList.mpr ⟨x, hx, hc⟩))]
  | multisig flags token k keys =>
    obtain ⟨hlast, hfits⟩ := h _ (mem_subnodes_self _ _)
    exact congrArg (PolicyNode.multisig flags token k) (readKeys_eq hlast hfits (around keys))
  | sh x hx | wsh x hx | wrapper _ _ x hx => rw [asRead, hx fun c hc => h c (mem_cons_of_mem _ hc)]
  | andor flags x y z hx hy hz =>
    simp only [subnodes, forall_mem_cons, forall_mem_append] at h
    rw [asRead, hx h.2.1.1, hy h.2.1.2, hz h.2.2]
  | withScript2 flags token x y hx hy =>
    simp only [subnodes, forall_mem_cons, forall_mem_append] at h
    rw [asRead, hx h.2.1, hy h.2.2]
  | _ => rfl

end PolicyNode

end LedgerBabylon
