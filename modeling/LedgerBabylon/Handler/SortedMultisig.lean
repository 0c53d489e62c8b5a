import LedgerBabylon.Handler.RegisteredKeys
import LedgerBabylon.Handler.SignPsbt.MapLookups
import LedgerBabylon.Lib.SelectionSort

/-!
# Sorted multisigs

The keys of `sortedmulti` and `sortedmulti_a` are sorted while the script is emitted: for every position
the smallest of the keys not used yet is looked for, and all of them are derived again for it. The result
is the script of `multi` or `multi_a` for the sorted keys, whatever order they are written in.
-/

namespace LedgerBabylon

open List Exec SelectionSort

variable {as bs pubkeys : List Bytes} {less : Bytes → Bytes → Bool}
  {used : List Nat} {part : Bytes → Bytes} {token : MultisigToken}

theorem byteArrayLt_isOrder {V : Type} (f : V → Bytes) : IsOrder fun a b => byteArrayLt (f a) (f b) where
  asymm a b h := by
    rw [byteArrayLt_iff] at h
    rw [← Bool.not_eq_true, byteArrayLt_iff]
    exact List.lt_asymm h
  trans a b c hab hbc := by
    rw [← Bool.not_eq_true, byteArrayLt_iff, List.not_lt] at hab hbc ⊢
    exact List.le_trans hbc hab

theorem eq_of_perm_of_inOrder (hperm : as.Perm bs) (ha : as.Pairwise fun a b => byteArrayLt b a = false)
    (hb : bs.Pairwise fun a b => byteArrayLt b a = false) : as = bs := by
  refine List.Perm.eq_of_pairwise ?_ ha hb hperm
  intro a b _ _ hab hba
  rw [← Bool.not_eq_true, byteArrayLt_iff, List.not_lt] at hab hba
  exact List.le_antisymm hab hba

section

variable {σ : Type} {dev : Device σ} {wdi : WalletDerivationInfo} {I : Session σ → Prop}
  {pubkey : KeyExpr → Bytes} {keys : List KeyExpr}

theorem yields_pubkeysInOrder (h : ∀ key ∈ keys, Yields I (getDerivedPubkey dev wdi key) (pubkey key)) :
    Yields I (pubkeysInOrder dev wdi keys) (keys.map pubkey) := by
  induction keys with
  | nil => exact yields_pure I []
  | cons key keys ih =>
    rw [forall_mem_cons] at h
    exact h.1.bind ((ih h.2).bind (yields_pure I _))

theorem yields_smallestPubkey {j : Nat} {best : Option Nat × Bytes}
    (h : ∀ key ∈ keys, Yields I (getDerivedPubkey dev wdi key) (pubkey key)) :
    Yields I (smallestPubkey dev wdi less used keys j best)
      (smallest less used (keys.map pubkey) j best) := by
  induction keys generalizing j best with
  | nil => exact yields_pure I best
  | cons key keys ih =>
    rw [forall_mem_cons] at h
    rw [smallestPubkey, map_cons, smallest]
    by_cases hused : j ∈ used
    · rw [if_pos hused, if_pos hused]
      exact ih h.2
    · rw [if_neg hused, if_neg hused]
      exact h.1.bind (ih h.2)

theorem yields_sortedPubkeys {n : Nat} {out : List Bytes}
    (h : ∀ key ∈ keys, Yields I (getDerivedPubkey dev wdi key) (pubkey key))
    (hout : selection less (replicate 33 0xFF) (keys.map pubkey) n used = some out) :
    Yields I (sortedPubkeys dev wdi less keys n used) out := by
  induction n generalizing used out with
  | zero =>
    cases hout
    exact yields_pure I []
  | succ n ih =>
    rw [selection] at hout
    rw [sortedPubkeys]
    apply (yields_smallestPubkey h).bind
    split at hout
    · cases hout
    · rename_i j v hsmallest
      obtain ⟨rest, hrest, rfl⟩ := Option.map_eq_some_iff.mp hout
      rw [hsmallest]
      exact (ih hrest).bind (yields_pure I _)

def InOrder (part : Bytes → Bytes) (pubkeys : List Bytes) : Prop :=
  pubkeys.Pairwise fun a b => byteArrayLt (part b) (part a) = false

theorem InOrder.map_eq (ha : InOrder part as)
    (hb : InOrder part bs) (hperm : as.Perm bs) : as.map part = bs.map part :=
  eq_of_perm_of_inOrder (hperm.map part) (pairwise_map.mpr ha) (pairwise_map.mpr hb)

theorem yields_sortedPubkeys_inOrder (h : ∀ key ∈ keys, Yields I (getDerivedPubkey dev wdi key) (pubkey key))
    (htop : ∀ key ∈ keys, byteArrayLt (part (pubkey key)) (part (replicate 33 0xFF))) :
    ∃ out, Yields I (sortedPubkeys dev wdi (fun a b => byteArrayLt (part a) (part b)) keys keys.length [])
      out ∧ out.Perm (keys.map pubkey) ∧ InOrder part out := by
  obtain ⟨out, hout, hperm, hsorted⟩ := selection_sorts (byteArrayLt_isOrder part) (forall_mem_map.mpr htop)
  rw [length_map] at hout
  exact ⟨out, yields_sortedPubkeys h hout, hperm, hsorted⟩

/-- All orders of the keys are sorted to the same parts, and so is an order that is sorted already. -/
theorem exists_sorted (part : Bytes → Bytes)
    (h : ∀ key ∈ keys, Yields I (getDerivedPubkey dev wdi key) (pubkey key))
    (htop : ∀ key ∈ keys, byteArrayLt (part (pubkey key)) (part (replicate 33 0xFF))) :
    ∃ sorted : List Bytes, ∀ keys' : List KeyExpr, keys'.Perm keys →
      (∃ out, Yields I (sortedPubkeys dev wdi (fun a b => byteArrayLt (part a) (part b)) keys'
          keys'.length []) out ∧ out.map part = sorted.map part) ∧
      (InOrder part (keys'.map pubkey) → (keys'.map pubkey).map part = sorted.map part) := by
  obtain ⟨sorted, -, hsorted, horder⟩ := yields_sortedPubkeys_inOrder h htop
  refine ⟨sorted, fun keys' hperm => ⟨?_, fun horder' => ?_⟩⟩
  · obtain ⟨out, hout, hperm', horder'⟩ := yields_sortedPubkeys_inOrder
      (fun key hkey => h key (hperm.subset hkey)) fun key hkey => htop key (hperm.subset hkey)
    exact ⟨out, hout, horder'.map_eq horder (hperm'.trans ((hperm.map pubkey).trans hsorted.symm))⟩
  · exact horder'.map_eq horder ((hperm.map pubkey).trans hsorted.symm)

end

theorem checksigAdds_congr (h : as.map (drop 1) = bs.map (drop 1)) : checksigAdds as = checksigAdds bs := by
  have hflat (ks : List Bytes) : (ks.flatMap fun k => 0x20 :: k.drop 1 ++ [OP_CHECKSIGADD]) =
      (ks.map (drop 1)).flatMap fun x => 0x20 :: x ++ [OP_CHECKSIGADD] := by
    rw [flatMap_map]
  cases as with
  | nil =>
    obtain rfl := map_eq_nil_iff.mp h.symm
    rfl
  | cons a as =>
    cases bs with
    | nil => cases h
    | cons b bs =>
      obtain ⟨hhead, htail⟩ := cons.inj h
      rw [checksigAdds, checksigAdds, hflat, hflat, hhead, htail]

section

variable {σ : Type} {dev : Device σ} {wdi : WalletDerivationInfo} {I : Session σ → Prop}
  {pubkey : KeyExpr → Bytes} {keys : List KeyExpr} {k : Nat}

theorem yields_processMulti (flagV : Bool)
    (hlen : keys.length ≤ 16) (h : Yields I (multisigPubkeys dev wdi token keys) pubkeys) :
    Yields I (processMulti dev wdi flagV token k keys)
      (smallNumber k :: pubkeys.flatMap (0x21 :: ·) ++ smallNumber keys.length ::
        outputOpV flagV OP_CHECKMULTISIG) := by
  rw [processMulti, if_neg (Nat.not_lt.mpr hlen)]
  exact h.bind (yields_pure I _)

theorem yields_processMultiA (flagV : Bool)
    (hk : k ≤ 16) (h : Yields I (multisigPubkeys dev wdi token keys) pubkeys) :
    Yields I (processMultiA dev wdi flagV token k keys)
      (checksigAdds pubkeys ++ smallNumber k :: outputOpV flagV OP_NUMEQUAL) := by
  rw [processMultiA, if_neg (Nat.not_lt.mpr hk)]
  exact h.bind (yields_pure I _)

/-- All orders of the keys give one script, which is the one of the multisig that is not sorted for the
keys in order. -/
theorem sortedmulti_sorts (flagV : Bool) (hkn : k ≤ keys.length) (hn : keys.length ≤ 16)
    (hpubkey : ∀ key ∈ keys, Yields I (getDerivedPubkey dev wdi key) (pubkey key)) :
    ((∀ key ∈ keys, byteArrayLt (pubkey key) (replicate 33 0xFF)) →
      ∃ script, ∀ keys', keys'.Perm keys → Yields I (processMulti dev wdi flagV .sortedmulti k keys') script ∧
        (InOrder id (keys'.map pubkey) → Yields I (processMulti dev wdi flagV .multi k keys') script)) ∧
    ((∀ key ∈ keys, byteArrayLt ((pubkey key).drop 1) (replicate 32 0xFF)) →
      ∃ script, ∀ keys', keys'.Perm keys →
        Yields I (processMultiA dev wdi flagV .sortedmultiA k keys') script ∧
        (InOrder (drop 1) (keys'.map pubkey) →
          Yields I (processMultiA dev wdi flagV .multiA k keys') script)) := by
  constructor
  · intro htop
    obtain ⟨sorted, hsorted⟩ := exists_sorted id hpubkey htop
    refine ⟨smallNumber k :: sorted.flatMap (0x21 :: ·) ++ smallNumber keys.length ::
      outputOpV flagV OP_CHECKMULTISIG, fun keys' hperm => ?_⟩
    obtain ⟨⟨out, hout, hmap⟩, hkept⟩ := hsorted keys' hperm
    have hn' : keys'.length ≤ 16 := by rwa [hperm.length_eq]
    rw [map_id, map_id] at hmap hkept
    rw [← hperm.length_eq]
    refine ⟨?_, fun horder => ?_⟩
    · rw [← hmap]
      exact yields_processMulti flagV hn' hout
    · rw [← hkept horder]
      exact yields_processMulti flagV hn'
        (yields_pubkeysInOrder fun key hkey => hpubkey key (hperm.subset hkey))
  · intro htop
    obtain ⟨sorted, hsorted⟩ := exists_sorted (drop 1) hpubkey htop
    refine ⟨checksigAdds sorted ++ smallNumber k :: outputOpV flagV OP_NUMEQUAL, fun keys' hperm => ?_⟩
    obtain ⟨⟨out, hout, hmap⟩, hkept⟩ := hsorted keys' hperm
    have hk : k ≤ 16 := hkn.trans hn
    refine ⟨?_, fun horder => ?_⟩
    · rw [← checksigAdds_congr hmap]
      exact yields_processMultiA flagV hk hout
    · rw [← checksigAdds_congr (hkept horder)]
      exact yields_processMultiA flagV hk
        (yields_pubkeysInOrder fun key hkey => hpubkey key (hperm.subset hkey))

end

namespace TwoKeys

open MasterKey

def twoKeys : PolicyMapWalletHeader := ⟨2, [], wshMulti.length, .inr wshMultiHash, 2, TwoKeys.keysRoot⟩

def parsedKeyInfos : Nat → PolicyMapKeyInfo
  | 0 => parsedKeyInfo
  | _ => { PolicyMapKeyInfo.zero with
      extPubkey := ⟨0x043587CF, 0, 0, 0, (cosignerPayload.drop 13).take 32, cosignerPubkey⟩ }

theorem isPoint_cosignerPubkey : IsPoint cosignerPubkey :=
  ⟨by decide +kernel, by decide +kernel, by decide +kernel⟩

theorem twoKeys_fetched : FetchesKeys (TwoKeys.device wshMultiHash wshMulti) twoKeys parsedKeyInfos where
  fetched {index} hindex := by
    have hcases : index = 0 ∨ index = 1 := by
      have : index < 2 := hindex
      omega
    rcases hcases with rfl | rfl
    · exact ⟨MasterKey.keyInfo, by decide +kernel, fun e =>
        ⟨e, Environment.leafElement_known _ (by decide +kernel) (by decide +kernel) e⟩⟩
    · exact ⟨cosigner, by decide +kernel, fun e =>
        ⟨e, Environment.leafElement_known _ (by decide +kernel) (by decide +kernel) e⟩⟩
  point {index} _ := by
    cases index with
    | zero => exact isPoint_pubkey
    | succ => exact isPoint_cosignerPubkey

/-- The key of the cosigner is the smaller one. -/
def writtenKeys : List KeyExpr := [⟨0, 1, .normal 0, 0⟩, ⟨0, 1, .normal 1, 1⟩]

def derived (key : KeyExpr) : Bytes := if key.type = .normal 0 then pubkey else cosignerPubkey

theorem yields_derived : ∀ key ∈ writtenKeys, Yields (Session.CacheOk True) (getDerivedPubkey
    (TwoKeys.device wshMultiHash wshMulti) (twoKeys.derivation false 0 false) key) (derived key) := by
  rw [writtenKeys, forall_mem_cons, forall_mem_singleton]
  constructor
  · exact ((returns_getExtendedPubkeyFromClient twoKeys_fetched (by decide)).yields trivial).bind
      (yields_pure _ pubkey)
  · exact ((returns_getExtendedPubkeyFromClient twoKeys_fetched (by decide)).yields trivial).bind
      (yields_pure _ cosignerPubkey)

end TwoKeys

open TwoKeys in
theorem sortedmulti_sorts_twoKeys :
    Yields (Session.CacheOk True) (processMulti (TwoKeys.device wshMultiHash wshMulti)
      (twoKeys.derivation false 0 false) false .sortedmulti 2 writtenKeys)
      (twoOfTwo cosignerPubkey MasterKey.pubkey) := by
  obtain ⟨hsorts, -⟩ := sortedmulti_sorts (k := 2) false (by decide) (by decide) yields_derived
  obtain ⟨script, hscript⟩ := hsorts (by decide +kernel)
  have hswap : writtenKeys.reverse.Perm writtenKeys := reverse_perm _
  have hmulti := (hscript _ hswap).2 (by unfold InOrder; decide +kernel)
  have hdirect : Yields _ (processMulti _ _ false .multi 2 _) _ := yields_processMulti false (by decide)
    (yields_pubkeysInOrder fun key hkey => yields_derived key (hswap.subset hkey))
  have hbytes : smallNumber 2 :: (writtenKeys.reverse.map derived).flatMap (0x21 :: ·) ++
      smallNumber writtenKeys.reverse.length :: outputOpV false OP_CHECKMULTISIG =
      twoOfTwo cosignerPubkey MasterKey.pubkey := by decide +kernel
  have hempty : Session.CacheOk True MasterKey.session := by
    intro _ _ _ h
    simp [MasterKey.session, SignPsbtCache.empty] at h
  obtain ⟨_, h1, -⟩ := hmulti _ hempty
  obtain ⟨_, h2, -⟩ := hdirect _ hempty
  rw [← hbytes, ← (EStateM.Result.ok.inj (h1.symm.trans h2)).1]
  exact (hscript _ (.refl _)).1

end LedgerBabylon
