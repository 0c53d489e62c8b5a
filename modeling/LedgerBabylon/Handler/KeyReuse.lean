import LedgerBabylon.Handler.RegisteredKeys

/-!
# Reuse of keys

A sane policy uses no key twice: its key infos have different public keys, a musig expression has no key
twice, and two key expressions for the same key have no derivation step in common. The check goes
through the key expressions as they are read from memory. Where an array is read as it was written, it
comes to the check of the key expressions themselves.
-/

namespace LedgerBabylon

open Endian Exec List
open PolicyNode hiding keys

variable {policy : PolicyNode} {a b : KeyExpr} {i n k : Nat} {pubkey : ExtPubkey} {σ : Type} (dev : Device σ)

/-- The key expressions of a template as they are read, in the order of their indices, for what else is
in memory near the keys of each node. -/
def PolicyNode.keyRecords (around : Nat → Memory) (policy : PolicyNode) : List KeyRecord :=
  (policy.subnodes false).zipIdx.flatMap fun ((_, node), i) => keyRecordsOf (around i) node.ownKeys

def checkMusigKeys (r : KeyRecord) : Query σ Unit :=
  if r.isMusig then
    match r.keys with
    | none => throw .undefinedBehaviour
    | some keyIndexes => if keyIndexes.Nodup then return () else throw (.ret (-1))
  else return ()

/-- `are_key_placeholders_identical`. With any other type the application stops at an assertion. -/
def areKeyPlaceholdersIdentical (a b : KeyRecord) : Query σ Bool :=
  if a.type ≠ b.type then return false
  else if a.isNormal then return a.index = b.index
  else if a.isMusig then
    match a.keys, b.keys with
    | some is, some js => return is.isPerm js
    | _, _ => throw .undefinedBehaviour
  else throw .undefinedBehaviour

/-- Two key expressions for the same key have no derivation step in common. The index of the key is
compared once more, also for musig. -/
def checkDerivations (a b : KeyRecord) : Query σ Unit := do
  let identical ← areKeyPlaceholdersIdentical a b
  if identical && a.index = b.index && (a.numFirst = b.numFirst || a.numFirst = b.numSecond ||
      a.numSecond = b.numFirst || a.numSecond = b.numSecond) then throw (.ret (-1))
  else return ()

def checkDerivationsOfAll : List KeyRecord → Query σ Unit
  | [] => return ()
  | a :: rs => do
    rs.forM (checkDerivations a)
    checkDerivationsOfAll rs

def fetchPubkeys (header : PolicyMapWalletHeader) : Nat → Nat → Query σ Unit
  | 0, _ => return ()
  | n + 1, i => do
    discard (getPubkeyFromMerkleTree dev header i)
    fetchPubkeys header n (i + 1)

/-- The keys are different. The last index of the outer loop is computed without sign. -/
def checkPubkeys (header : PolicyMapWalletHeader) : Query σ Unit :=
  if header.nKeys = 0 then fetchPubkeys dev header (2 ^ 32 - 1) 0
  else areDistinctFrom dev header (header.nKeys - 1) 0

def isPolicySaneInMemory (around : Nat → Memory) (header : PolicyMapWalletHeader) (policy : PolicyNode) :
    Query σ Unit :=
  if areMiniscriptsSane dev policy then do
    checkPubkeys dev header
    (policy.keyRecords around).forM checkMusigKeys
    checkDerivationsOfAll (policy.keyRecords around)
  else throw (.ret (-1))

theorem PolicyNode.keyRecords_eq (hlast : policy.MusigLast)
    (hfits : ∀ key ∈ policy.keys, key.type.Fits) (around : Nat → Memory) :
    policy.keyRecords around = policy.keys.map KeyExpr.record := by
  have hnode : ∀ c ∈ (policy.subnodes false).zipIdx,
      keyRecordsOf (around c.2) c.1.2.ownKeys = c.1.2.ownKeys.map KeyExpr.record := by
    intro c hc
    have hmem : c.1 ∈ policy.subnodes false := fst_mem_of_mem_zipIdx hc
    apply keyRecordsOf_eq (hlast _ hmem)
    intro key hkey
    apply hfits
    rw [policy.keys_eq_flatMap false]
    exact mem_flatMap.mpr ⟨c.1, hmem, hkey⟩
  unfold keyRecords
  rw [flatMap_congr hnode, policy.keys_eq_flatMap false, map_flatMap]
  conv_rhs => rw [← zipIdx_map_fst 0 (policy.subnodes false), flatMap_map]

theorem checkMusigKeys_record (key : KeyExpr) : checkMusigKeys key.record =
      (if key.hasDistinctKeys then pure () else throw (.ret (-1)) : Query σ Unit) := by
  obtain ⟨numFirst, numSecond, type, keyexprIndex⟩ := key
  cases type with
  | normal | unreadable => rfl
  | musig keyIndexes =>
    by_cases h : keyIndexes.Nodup <;>
      simp [checkMusigKeys, KeyExpr.record, KeyRecord.isMusig, KeyExpr.hasDistinctKeys,
        KeyExpressionType.keyIndexes, h]

theorem areKeyPlaceholdersIdentical_record (ha : a.type.Fits) (b : KeyExpr) :
    areKeyPlaceholdersIdentical a.record b.record =
      (pure (arePlaceholdersIdentical a.type b.type) : Query σ Bool) := by
  obtain ⟨aFirst, aSecond, aType, aIndex⟩ := a
  obtain ⟨bFirst, bSecond, bType, bIndex⟩ := b
  cases aType with
  | unreadable => exact ha.elim
  | normal | musig => cases bType <;> rfl

theorem index_eq_of_identical (h : arePlaceholdersIdentical a.type b.type) :
    a.record.index = b.record.index := by
  obtain ⟨aFirst, aSecond, aType, aIndex⟩ := a
  obtain ⟨bFirst, bSecond, bType, bIndex⟩ := b
  cases aType <;> cases bType <;> simp_all [arePlaceholdersIdentical, KeyExpr.record]

theorem checkDerivations_record (ha : a.type.Fits) (b : KeyExpr) : checkDerivations a.record b.record =
      (if areDerivationsDisjoint a b then pure () else throw (.ret (-1)) : Query σ Unit) := by
  unfold checkDerivations
  rw [areKeyPlaceholdersIdentical_record ha, pure_bind]
  cases hsame : arePlaceholdersIdentical a.type b.type with
  | false => simp [areDerivationsDisjoint, hsame]
  | true =>
    have hindex := index_eq_of_identical hsame
    have hfirst (k : KeyExpr) : k.record.numFirst = k.numFirst := rfl
    have hsecond (k : KeyExpr) : k.record.numSecond = k.numSecond := rfl
    simp only [areDerivationsDisjoint, hsame, hindex, hfirst, hsecond]
    grind

theorem checkDerivationsOfAll_record {keys : List KeyExpr} (hfits : ∀ key ∈ keys, key.type.Fits) :
    checkDerivationsOfAll (keys.map KeyExpr.record) =
      (if keys.Pairwise (areDerivationsDisjoint · ·) then pure () else throw (.ret (-1)) : Query σ Unit) := by
  induction keys with
  | nil => rfl
  | cons key keys ih =>
    have hall : keys.all (areDerivationsDisjoint key) ↔
        ∀ k ∈ keys, areDerivationsDisjoint key k := all_eq_true
    obtain ⟨hkey, hkeys⟩ := forall_mem_cons.mp hfits
    rw [map_cons, checkDerivationsOfAll, ih hkeys, forM_map_check (checkDerivations_record hkey)]
    by_cases hfirst : keys.all (areDerivationsDisjoint key)
    · rw [if_pos hfirst, pure_bind]
      simp only [pairwise_cons, ← hall, hfirst, true_and]
    · have hnot : ¬(key :: keys).Pairwise (areDerivationsDisjoint · ·) := by
        rw [pairwise_cons, ← hall]
        exact fun h => hfirst h.1
      rw [if_neg hfirst, if_neg hnot]
      rfl

theorem isPolicySaneInMemory_eq (hlast : policy.MusigLast)
    (hfits : ∀ key ∈ policy.keys, key.type.Fits) (around : Nat → Memory)
    (header : PolicyMapWalletHeader) :
    isPolicySaneInMemory dev around header policy =
      if areMiniscriptsSane dev policy then do
        checkPubkeys dev header
        if areKeyExpressionsSane policy.keys then pure () else throw (.ret (-1))
      else throw (.ret (-1)) := by
  unfold isPolicySaneInMemory areKeyExpressionsSane
  rw [keyRecords_eq hlast hfits around, checkDerivationsOfAll_record hfits,
    forM_map_check checkMusigKeys_record]
  cases policy.keys.all KeyExpr.hasDistinctKeys with
  | false => rfl
  | true => simp

theorem isPolicySaneInMemory_eq_isPolicySane (hlast : policy.MusigLast)
    (hfits : ∀ key ∈ policy.keys, key.type.Fits) (around : Nat → Memory)
    {header : PolicyMapWalletHeader} (hkeys : header.nKeys ≠ 0) :
    isPolicySaneInMemory dev around header policy = isPolicySane dev header policy := by
  rw [isPolicySaneInMemory_eq dev hlast hfits around header]
  unfold checkPubkeys isPolicySane
  rw [if_neg hkeys, keyExpressions_eq]

namespace MasterKey

def header : PolicyMapWalletHeader := ⟨2, [], 0, .inl [], 2, keysRoot⟩

/-- The policy of `tr(@0/**,multi_a(1,@1/**,musig(@0,@1)/**))`. -/
def musigLast : PolicyNode := .tr ⟨0, 1, .normal 0, 0⟩ (some (.leaf
  (.multisig none .multiA 1 [⟨0, 1, .normal 1, 1⟩, ⟨0, 1, .musig [0, 1], 2⟩])))

end MasterKey

open MasterKey in
theorem isPolicySaneInMemory_eq_musigLast :
    isPolicySaneInMemory (device sixteenKeysHash sixteenKeys) (fun _ _ => 0) header musigLast =
      isPolicySane (device sixteenKeysHash sixteenKeys) header musigLast :=
  isPolicySaneInMemory_eq_isPolicySane _ (by decide) (by decide) _ (by decide)

def SameKeys : KeyExpressionType → KeyExpressionType → Prop
  | .normal i, .normal j => i = j
  | .musig is, .musig js => ∀ i, i ∈ is ↔ i ∈ js
  | _, _ => False

def KeyExpr.derivations (key : KeyExpr) : List UInt32 := [key.numFirst, key.numSecond]

def Commitments.compressedPubkey {dev : Device σ} (c : Commitments dev.env)
    (header : PolicyMapWalletHeader) (i : Nat) : Option Bytes :=
  (parsePolicyMapKeyInfo dev.crypto.sha256 header.version (c.element header.keysInfoMerkleRoot
    (UInt32.ofNat header.nKeys) (UInt32.ofNat i))).map fun (_, keyInfo) =>
      keyInfo.extPubkey.compressedPubkey

structure NoKeyReuse (pubkeys : Nat → Option Bytes) (nKeys : Nat) (keys : List KeyExpr) : Prop where
  pubkeys : ∀ i j, i < j → j < nKeys → pubkeys i ≠ pubkeys j
  musig : ∀ key ∈ keys, ∀ keyIndexes, key.type = .musig keyIndexes → keyIndexes.Nodup
  derivations : keys.Pairwise fun a b => SameKeys a.type b.type → a.derivations.Disjoint b.derivations

section

variable {dev} (c : Commitments dev.env) {header : PolicyMapWalletHeader} {s s' : Session σ}

theorem getPubkeyFromMerkleTree_ok (h : getPubkeyFromMerkleTree dev header i s = .ok pubkey s') :
    c.compressedPubkey header i = some pubkey.compressedPubkey := by
  obtain ⟨⟨ok, keyInfo⟩, s1, hfetch, h⟩ := bind_ok h
  obtain ⟨-, -, info, hanswer, hparse⟩ := (reads_fetchKeyInfo (C := fun _ => True) i).ok trivial hfetch
  cases ok with
  | false => simp at h
  | true =>
    obtain ⟨rfl, -⟩ := pure_ok h
    rw [Commitments.compressedPubkey, ← c.leafElement hanswer, hparse]
    rfl

theorem isDistinctFrom_ok {j : Nat} (h : isDistinctFrom dev header pubkey n j s = .ok () s')
    (hk : k < n) : c.compressedPubkey header (j + k) ≠ some pubkey.compressedPubkey := by
  induction n generalizing j k s with
  | zero => omega
  | succ n ih =>
    obtain ⟨other, s1, hother, h⟩ := bind_ok h
    split at h
    · simp at h
    · rename_i hne
      cases k with
      | zero =>
        rw [Nat.add_zero, getPubkeyFromMerkleTree_ok c hother]
        intro heq
        exact hne (Option.some.inj heq).symm
      | succ k =>
        rw [show j + (k + 1) = j + 1 + k by omega]
        exact ih h (by omega)

theorem areDistinctFrom_ok (h : areDistinctFrom dev header n i s = .ok () s') {l : Nat}
    (hkl : k < l) (hl : l ≤ n) :
    c.compressedPubkey header (i + k) ≠ c.compressedPubkey header (i + l) := by
  induction n generalizing i k l s with
  | zero => omega
  | succ n ih =>
    obtain ⟨pubkey, s1, hpubkey, h⟩ := bind_ok h
    obtain ⟨⟨⟩, s2, hdistinct, h⟩ := bind_ok h
    obtain ⟨l, rfl⟩ : ∃ l', l = l' + 1 := ⟨l - 1, by omega⟩
    cases k with
    | zero =>
      rw [Nat.add_zero, getPubkeyFromMerkleTree_ok c hpubkey, show i + (l + 1) = i + 1 + l by omega]
      exact (isDistinctFrom_ok c hdistinct (by omega)).symm
    | succ k =>
      rw [show i + (k + 1) = i + 1 + k by omega, show i + (l + 1) = i + 1 + l by omega]
      exact ih h (by omega) (by omega)

end

theorem sameKeys_identical {a b : KeyExpressionType} (ha : ∀ is, a = .musig is → is.Nodup)
    (hb : ∀ is, b = .musig is → is.Nodup) (h : SameKeys a b) : arePlaceholdersIdentical a b := by
  cases a with
  | unreadable => exact h.elim
  | normal i =>
    cases b with
    | normal j => exact decide_eq_true h
    | musig | unreadable => exact h.elim
  | musig is =>
    cases b with
    | normal | unreadable => exact h.elim
    | musig js =>
      have hperm : is.Perm js := (perm_ext_iff_of_nodup (ha is rfl) (hb js rfl)).mpr h
      exact isPerm_iff.mpr hperm

theorem disjoint_of_areDerivationsDisjoint (h : areDerivationsDisjoint a b)
    (hsame : arePlaceholdersIdentical a.type b.type) :
    a.derivations.Disjoint b.derivations := by
  simp only [areDerivationsDisjoint, hsame, Bool.not_true, Bool.false_or, Bool.and_eq_true,
    decide_eq_true_eq] at h
  simp only [disjoint_left, KeyExpr.derivations, mem_cons, not_mem_nil, or_false]
  grind

variable {dev} in
/-- What is sane uses no key twice, if no node has a musig expression before another key. -/
theorem noKeyReuse_of_isPolicySane (c : Commitments dev.env) {around : Nat → Memory}
    {header : PolicyMapWalletHeader} {policy : PolicyNode} {s s' : Session σ}
    (hfits : ∀ key ∈ policy.keys, key.type.Fits) (hlast : policy.MusigLast)
    (h : isPolicySaneInMemory dev around header policy s = .ok () s') :
    NoKeyReuse (c.compressedPubkey header) header.nKeys policy.keys := by
  rw [isPolicySaneInMemory_eq dev hlast hfits around header] at h
  split at h
  · obtain ⟨⟨⟩, s1, hpubkeys, h⟩ := bind_ok h
    split at h
    · rename_i hsane
      obtain ⟨hdistinct, hpairs⟩ := (Bool.and_eq_true _ _).mp hsane
      have hmusig : ∀ key ∈ policy.keys, ∀ is, key.type = .musig is → is.Nodup := by
        intro key hkey is htype
        have hnodup := all_eq_true.mp hdistinct key hkey
        simpa [KeyExpr.hasDistinctKeys, htype, KeyExpressionType.keyIndexes] using hnodup
      constructor
      case pubkeys =>
        intro i j hij hj
        have hne : header.nKeys ≠ 0 := by omega
        rw [checkPubkeys, if_neg hne] at hpubkeys
        have hdiff := areDistinctFrom_ok c hpubkeys hij (by omega)
        simpa using hdiff
      case musig => exact hmusig
      case derivations =>
        have hpairs := of_decide_eq_true hpairs
        apply hpairs.imp_of_mem
        intro a b ha hb hdisjoint hsame
        apply disjoint_of_areDerivationsDisjoint hdisjoint
        exact sameKeys_identical (hmusig a ha) (hmusig b hb) hsame
    · simp at h
  · simp at h

namespace TwoKeys

/-- The sanity check of a template with both keys, as it is after it was received. -/
def checkedPolicy (templateHash : Digest) (template : Bytes) : Query (List Bool) WalletPolicy := do
  let dev := device templateHash template
  let wallet ← readAndParseWalletPolicy dev ((request templateHash template).drop 1)
  isPolicySaneInMemory dev (fun _ _ => 0) wallet.header wallet.policy
  return wallet

def musigLast : Bytes := text "tr(@0/**,multi_a(1,@1/**,musig(@0,@1)/**))"

def musigLastHash : Digest := .ofNat 0x40a76253614604ef981115f98c611524def400822f0ae51b05199c822354a1ff

def musigTwice : Bytes := text "tr(@0/**,multi_a(1,musig(@0,@1)/**,musig(@0,@1)/**))"

def musigTwiceHash : Digest := .ofNat 0xd8433824b9b1f25a821b61e0da0b7a522f13b26cb9dd7771417d6365b0b9efdf

theorem musig_sane : (returned? (checkedPolicy musigLastHash musigLast) MasterKey.session).any (fun wallet =>
      wallet.header.nKeys = 2 ∧ (∀ key ∈ wallet.policy.keys, key.type.Fits) ∧ wallet.policy.MusigLast) =
      true ∧
    (returned? (checkedPolicy musigTwiceHash musigTwice) MasterKey.session).any (fun wallet =>
      wallet.policy.keys = [⟨0, 1, .normal 0, 0⟩, ⟨0, 1, .musig [0, 1], 1⟩, ⟨0, 1, .musig [0, 1], 2⟩]) =
      true :=
  ⟨by decide +kernel, by decide +kernel⟩

end TwoKeys

open TwoKeys in
theorem noKeyReuse_of_isPolicySane_musigLast :
    ∃ wallet s', checkedPolicy musigLastHash musigLast MasterKey.session = .ok wallet s' ∧
      NoKeyReuse ((commitments musigLastHash musigLast).compressedPubkey wallet.header) 2
        wallet.policy.keys := by
  obtain ⟨wallet, hchecked, hwallet⟩ := (Option.any_eq_true _ _).mp musig_sane.1
  obtain ⟨hkeys, hfits, hlast⟩ := of_decide_eq_true hwallet
  have hrun := ok_of_returned? hchecked
  refine ⟨wallet, _, hrun, ?_⟩
  obtain ⟨wallet', s1, hread, hrun⟩ := bind_ok hrun
  obtain ⟨⟨⟩, s2, hsane, hrun⟩ := bind_ok hrun
  obtain ⟨rfl, -⟩ := pure_ok hrun
  rw [← hkeys]
  exact noKeyReuse_of_isPolicySane _ hfits hlast hsane

open TwoKeys in
/-- The second of two equal musig expressions is read as the key `@0` with other derivation steps. -/
theorem not_noKeyReuse_of_isPolicySane :
    ∃ wallet s1 s2, readAndParseWalletPolicy (device musigTwiceHash musigTwice)
        ((request musigTwiceHash musigTwice).drop 1) MasterKey.session = .ok wallet s1 ∧
      isPolicySaneInMemory (device musigTwiceHash musigTwice) (fun _ _ => 0) wallet.header wallet.policy
        s1 = .ok () s2 ∧
      ∀ pubkeys, ¬NoKeyReuse pubkeys wallet.header.nKeys wallet.policy.keys := by
  obtain ⟨wallet, hchecked, hwallet⟩ := (Option.any_eq_true _ _).mp musig_sane.2
  have hkeys := of_decide_eq_true hwallet
  obtain ⟨wallet', s1, hread, hrun⟩ := bind_ok (ok_of_returned? hchecked)
  obtain ⟨⟨⟩, s2, hsane, hrun⟩ := bind_ok hrun
  obtain ⟨rfl, -⟩ := pure_ok hrun
  refine ⟨wallet', s1, s2, hread, hsane, ?_⟩
  intro pubkeys hno
  have hpairs := hno.derivations
  rw [hkeys] at hpairs
  simp [SameKeys, KeyExpr.derivations] at hpairs

end LedgerBabylon
