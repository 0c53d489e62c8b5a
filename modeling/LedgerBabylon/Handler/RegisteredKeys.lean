import LedgerBabylon.Handler.RegisteredPolicies
import Mathlib.Data.Finset.Card
import Mathlib.Data.List.Dedup

/-!
# The keys of registered policies

The user agrees to a policy together with a list of keys. `count_distinct_keys_info` is meant to count
how many different keys the template has; what it computes is the largest index plus one. The two
agree exactly if no index is left out.
-/

namespace LedgerBabylon

open Endian Exec

/-- The key indexes in a template, each as often as it occurs, directly or in a musig expression. -/
def PolicyNode.keyIndexes (policy : PolicyNode) : List Nat :=
  policy.keyexprs.flatMap fun (key, _) => key.type.keyIndexes

def PolicyNode.distinctKeys (policy : PolicyNode) : Nat := policy.keyIndexes.dedup.length

def WalletPolicy.UsesEveryKey (wallet : WalletPolicy) : Prop :=
  ∀ i < wallet.header.nKeys, ∃ key leaf, (key, leaf) ∈ wallet.policy.keyexprs ∧ i ∈ key.type.keyIndexes

theorem PolicyNode.mem_keyIndexes {policy : PolicyNode} {i : Nat} : i ∈ policy.keyIndexes ↔
      ∃ key leaf, (key, leaf) ∈ policy.keyexprs ∧ i ∈ key.type.keyIndexes := by
  simp [PolicyNode.keyIndexes]

theorem range_subset_iff_dedup_length {is : List Nat} {n : Nat} (h : ∀ i ∈ is, i < n) :
    (∀ i < n, i ∈ is) ↔ is.dedup.length = n := by
  have hsub : is.toFinset ⊆ Finset.range n := by
    intro i hi
    exact Finset.mem_range.mpr (h i (List.mem_toFinset.mp hi))
  have hcard := Finset.card_le_card hsub
  have hiff : is.dedup.length = n ↔ is.toFinset = Finset.range n := by
    rw [← Finset.eq_iff_card_le_of_subset hsub, ← List.card_toFinset]
    rw [Finset.card_range] at hcard ⊢
    omega
  rw [hiff, Finset.Subset.antisymm_iff, and_iff_right hsub]
  simp [Finset.subset_iff]

variable {σ : Type} {dev : Device σ}

/-- If no musig expression comes before another key of its node, a registered policy uses every key that
the user was shown exactly if its template has as many different keys. -/
theorem registered_usesEveryKey_iff {raw response : Bytes} {wallet : WalletPolicy}
    {s s' : Session σ} (h : handlerRegisterWallet dev raw s = .ok (wallet, response) s')
    (hlast : wallet.policy.MusigLast) :
    wallet.UsesEveryKey ↔ wallet.policy.distinctKeys = wallet.header.nKeys := by
  have hlt : ∀ i ∈ wallet.policy.keyIndexes, i < wallet.header.nKeys := by
    intro i hi
    obtain ⟨key, leaf, hkey, hindex⟩ := PolicyNode.mem_keyIndexes.mp hi
    have hregistered := handlerRegisterWallet_ok h
    obtain ⟨raw', s1, s2, hread⟩ := hregistered.parsed
    apply hregistered.keyIndex_lt _ hindex
    rw [readAndParseWalletPolicy_asRead hread hlast]
    exact List.mem_map_of_mem hkey
  unfold PolicyNode.distinctKeys
  rw [← range_subset_iff_dedup_length hlt]
  simp only [PolicyNode.mem_keyIndexes]
  rfl

/-- **The script that the device computes is the one of the policy that was read:** with any cache, a
function of the committed key infos. -/
theorem walletScript_committed {raw : Bytes} {wallet : WalletPolicy} {s0 s1 s s' : Session σ}
    (c : Commitments dev.env) (hread : readAndParseWalletPolicy dev raw s0 = .ok wallet s1)
    (hlast : wallet.policy.MusigLast) (hcache : dev.CacheCoherent wallet.header wallet.policy s.cache)
    {change useCache : Bool} {addressIndex : UInt32} {script : Bytes}
    (h : getWalletScript dev (dev.asRead wallet.policy)
      (wallet.header.derivation change addressIndex useCache) s = .ok script s') :
    c.walletScript wallet.header wallet.policy change addressIndex = some script := by
  rw [readAndParseWalletPolicy_asRead hread hlast] at h
  exact c.walletScript_eq (readAndParseWalletPolicy_numbered hread) hcache h

namespace TwoKeys

open MasterKey

def cosigner : Bytes :=
  text "tpubD6NzVbkrYhZ4YoysXEhMAYQDboTceukpx8RnXvepgBCp6F3A9gNyFUGdwJir2C57hhk83KVCDv9kfJLEjWmXDR7f7zbHBtYeqJqbR1WzNre"

def cosignerPubkey : Bytes := beBytes 33 0x025f6b5f22ac3d3abaa06818aad625c74d68fbd07ac25c93296ff931c8af66a48e

def cosignerPayload : Bytes :=
  beBytes 45 0x043587cf000000000000000000f84398ebec80a31278ab22e4ad11e69ab3820c6f5d28e702bb614f0e654b5146 ++ cosignerPubkey

/-- The script that needs two signatures, for the given keys. -/
def twoOfTwo (first second : Bytes) : Bytes := [0x52, 0x21] ++ first ++ [0x21] ++ second ++ [0x52, 0xAE]

def witnessProgram : Digest := .ofNat 0xa9ec6f71f7141956d7fcbc739b7841923440bf5fc639eb580782d0833899958c

def cosignerHashes : List (Bytes × Digest) :=
  [(cosignerPayload, .ofNat 0x071a0c627356e398e11936a18e60beba2f22aa6bd2a961c7cdc21242be10fa24),
    (beBytes 32 0x071a0c627356e398e11936a18e60beba2f22aa6bd2a961c7cdc21242be10fa24,
      .ofNat 0x26a6c9eb3224f0ac855be6731f6e8aa59975dc12ea27071ef3125faa354bc4c8),
    (twoOfTwo pubkey cosignerPubkey, witnessProgram)]

def sha256 (message : Bytes) : Digest := (cosignerHashes.lookup message).getD (MasterKey.sha256 message)

def keysRoot : Digest := .ofNat 0x4c13685ae07c2fae72d9a02b8a46f716504042826c77bee13a889186a3a8d4fe

/-- The device with the master key, and a client that knows a template and two key infos. -/
def device (templateHash : Digest) (template : Bytes) : Device (List Bool) :=
  { MasterKey.device templateHash template with
    crypto := { crypto with sha256 }
    env := .known sha256 ⟨[(keysRoot, [MasterKey.keyInfo, cosigner])], [(templateHash, template)]⟩ }

def request (templateHash : Digest) (template : Bytes) : Bytes :=
  beBytes 8 0x4902055661756c74 ++ [UInt8.ofNat template.length] ++ templateHash.bytes ++ [2] ++ keysRoot.bytes

def wshMulti : Bytes := text "wsh(multi(2,@0/**,@1/**))"

def wshMultiHash : Digest := .ofNat 0xc36f64fc0195e6e1cecdcbf1e0d29a098a231f7cbe6eab0b04794f89181b5287

def wpkhCosigner : Bytes := text "wpkh(@1/**)"

def wpkhCosignerHash : Digest := .ofNat 0xb83f9e0f5164df42518652dd9ddbd1e5eb2a3027d100e1b75cdb6a588ac75726

theorem wshMulti_registered :
    (returned? (handlerRegisterWallet (device wshMultiHash wshMulti) (request wshMultiHash wshMulti))
      session).any
      (fun (wallet, _) => wallet.header.nKeys = 2 ∧ wallet.policy.keyIndexes = [0, 1] ∧
        wallet.policy.MusigLast) := by
  decide +kernel

theorem wpkhCosigner_registered : (returned? (handlerRegisterWallet (device wpkhCosignerHash wpkhCosigner)
      (request wpkhCosignerHash wpkhCosigner)) session).any
      (fun (wallet, _) => wallet.header.nKeys = 2 ∧ wallet.policy.keyIndexes = [1]) := by
  decide +kernel

def commitments (templateHash : Digest) (template : Bytes) :
    Commitments (device templateHash template).env := KnownData.commitments sha256 _

theorem wshMulti_script : (returned? (readAndParseWalletPolicy (device wshMultiHash wshMulti)
      ((request wshMultiHash wshMulti).drop 1)) session).any (fun wallet => wallet.policy.MusigLast ∧
        returned? (getWalletScript (device wshMultiHash wshMulti)
          ((device wshMultiHash wshMulti).asRead wallet.policy) (wallet.header.derivation false 0 true))
          session = some ([0x00, 32] ++ witnessProgram.bytes)) := by
  decide +kernel

end TwoKeys

open TwoKeys in
theorem walletScript_committed_wshMulti :
    ∃ wallet, returned? (readAndParseWalletPolicy (device wshMultiHash wshMulti)
        ((request wshMultiHash wshMulti).drop 1)) MasterKey.session = some wallet ∧
      (commitments wshMultiHash wshMulti).walletScript wallet.header wallet.policy false 0 =
        some ([0x00, 32] ++ witnessProgram.bytes) := by
  obtain ⟨wallet, hread, hwallet⟩ := (Option.any_eq_true _ _).mp wshMulti_script
  obtain ⟨hlast, hscript⟩ := of_decide_eq_true hwallet
  exact ⟨wallet, hread, walletScript_committed _ (ok_of_returned? hread) hlast
    Device.cacheCoherent_empty (ok_of_returned? hscript)⟩

open TwoKeys in
theorem registered_usesEveryKey_wshMulti :
    ∃ wallet response s', handlerRegisterWallet (device wshMultiHash wshMulti)
        (request wshMultiHash wshMulti) MasterKey.session = .ok (wallet, response) s' ∧
      wallet.UsesEveryKey := by
  obtain ⟨⟨wallet, response⟩, hregister, hwallet⟩ := (Option.any_eq_true _ _).mp wshMulti_registered
  obtain ⟨hkeys, hindexes, hlast⟩ := of_decide_eq_true hwallet
  refine ⟨wallet, response, _, ok_of_returned? hregister, ?_⟩
  apply (registered_usesEveryKey_iff (ok_of_returned? hregister) hlast).mpr
  rw [PolicyNode.distinctKeys, hindexes, hkeys]
  rfl

open TwoKeys in
/-- The user sees two keys, the first of which is that of the device, and the wallet has the second one
only. -/
theorem not_registered_usesEveryKey :
    ∃ wallet response s', handlerRegisterWallet (device wpkhCosignerHash wpkhCosigner)
        (request wpkhCosignerHash wpkhCosigner) MasterKey.session = .ok (wallet, response) s' ∧
      ¬wallet.UsesEveryKey := by
  obtain ⟨⟨wallet, response⟩, hregister, hwallet⟩ := (Option.any_eq_true _ _).mp wpkhCosigner_registered
  obtain ⟨hkeys, hindexes⟩ := of_decide_eq_true hwallet
  refine ⟨wallet, response, _, ok_of_returned? hregister, ?_⟩
  intro h
  have hmem : 0 ∈ wallet.policy.keyIndexes := by
    rw [PolicyNode.mem_keyIndexes]
    exact h 0 (by omega)
  rw [hindexes] at hmem
  simp at hmem

end LedgerBabylon
