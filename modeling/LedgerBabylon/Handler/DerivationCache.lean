import LedgerBabylon.Handler.RegisteredPolicies
import LedgerBabylon.Handler.CommittedScript

/-!
# The derivation cache

A signing run derives keys with one cache, for any key expressions of its policy, change flags and
address indexes. The cache is filled along the way with first derivation steps. As long as the client
sends the same key info whenever it is asked for one, every key is the one that is derived without a
cache.
-/

namespace LedgerBabylon

open Endian Exec

variable {σ : Type}

structure DerivationCall where
  key : KeyExpr
  change : Bool
  addressIndex : UInt32

def DerivationCall.run (dev : Device σ) (header : PolicyMapWalletHeader) (useCache : Bool)
    (call : DerivationCall) : Query σ Bytes :=
  getDerivedPubkey dev (header.derivation call.change call.addressIndex useCache) call.key

/-- A call for a key of the policy at which the client, if it sends a key info for the key's index, sends
the one in the table. -/
structure DerivationCall.Consistent (dev : Device σ) (wallet : WalletPolicy)
    (keyInfos : Nat → PolicyMapKeyInfo) (call : DerivationCall) (s : Session σ) : Prop where
  mem_keys : call.key ∈ wallet.policy.keys
  fetched {keyIndex : Nat} (htype : call.key.type = .normal keyIndex) {keyInfo : PolicyMapKeyInfo}
    {s' : Session σ} (h : fetchKeyInfo dev wallet.header.version wallet.header.keysInfoMerkleRoot
      wallet.header.nKeys keyIndex s = .ok (true, keyInfo) s') : keyInfo = keyInfos keyIndex

/-- The caches of signing runs, after any calls, between which what the session knows of the client may
have changed in any way. -/
inductive CacheOfCalls (dev : Device σ) (wallet : WalletPolicy) (keyInfos : Nat → PolicyMapKeyInfo) :
    SignPsbtCache → Prop
  | start : CacheOfCalls dev wallet keyInfos .empty
  | call {s : Session σ} {call : DerivationCall} (h : CacheOfCalls dev wallet keyInfos s.cache)
      (hcall : call.Consistent dev wallet keyInfos s) :
      CacheOfCalls dev wallet keyInfos (finalState (call.run dev wallet.header true) s).cache

def IsFirstStep (dev : Device σ) (keyInfos : Nat → PolicyMapKeyInfo) (key : KeyExpr) (change : Bool)
    (child : ExtPubkey) : Prop :=
  ∃ keyIndex tweak, key.type = .normal keyIndex ∧
    dev.crypto.bip32CKDpub (keyInfos keyIndex).extPubkey (key.changeStep change) = some (child, tweak)

def deriveFromRoot (dev : Device σ) (wdi : WalletDerivationInfo) (key : KeyExpr) (root : Nat × ExtPubkey) :
    Query σ Bytes :=
  if 0 < root.1 then do
    let child ← deriveFirstStepForPubkey dev root.2 key wdi.useCache wdi.change
    let (child, _) ← ofOption (dev.crypto.bip32CKDpub child wdi.addressIndex)
    return child.compressedPubkey
  else return root.2.compressedPubkey

theorem getDerivedPubkey_eq (dev : Device σ) (wdi : WalletDerivationInfo) (key : KeyExpr) :
    getDerivedPubkey dev wdi key = keyexprRoot dev wdi key.type >>= deriveFromRoot dev wdi key := rfl

section

variable {dev : Device σ} {wallet : WalletPolicy} {keyInfos : Nat → PolicyMapKeyInfo}
  {call : DerivationCall} {s s' : Session σ}

theorem musigClientKeys_useCache (dev : Device σ) (header : PolicyMapWalletHeader) (change : Bool)
    (addressIndex : UInt32) (keyIndexes : List Nat) :
    musigClientKeys dev (header.derivation change addressIndex false) keyIndexes =
      musigClientKeys dev (header.derivation change addressIndex true) keyIndexes := by
  induction keyIndexes with
  | nil => rfl
  | cons keyIndex keyIndexes ih =>
    rw [musigClientKeys, ih]
    rfl

theorem keyexprRoot_useCache (dev : Device σ) (header : PolicyMapWalletHeader) (change : Bool)
    (addressIndex : UInt32) (type : KeyExpressionType) :
    keyexprRoot dev (header.derivation change addressIndex false) type =
      keyexprRoot dev (header.derivation change addressIndex true) type := by
  cases type with
  | normal | unreadable => rfl
  | musig keyIndexes => rw [keyexprRoot, musigClientKeys_useCache, keyexprRoot]

theorem keyexprRoot_cache (dev : Device σ) (header : PolicyMapWalletHeader) (change useCache : Bool)
    (addressIndex : UInt32) (type : KeyExpressionType) (s : Session σ) :
    (finalState (keyexprRoot dev (header.derivation change addressIndex useCache) type) s).cache =
      s.cache := by
  have hroot : RefinesKeys dev dev.env header (· = s.cache) True _
      (keyexprRoot dev (header.derivation change addressIndex useCache) type) _ :=
    refines_keyexprRoot type
  exact (hroot.within.finalState rfl).2

theorem DerivationCall.Consistent.root_eq (h : call.Consistent dev wallet keyInfos s) {root : Nat × ExtPubkey}
    (hroot : keyexprRoot dev (wallet.header.derivation call.change call.addressIndex true) call.key.type
      s = .ok root s') (hlen : 0 < root.1) :
    ∃ keyIndex, call.key.type = .normal keyIndex ∧ root.2 = (keyInfos keyIndex).extPubkey := by
  cases htype : call.key.type with
  | normal keyIndex =>
    rw [htype] at hroot
    obtain ⟨⟨ok, keyInfo⟩, s1, hfetch, hroot⟩ := bind_ok hroot
    cases ok with
    | false => simp at hroot
    | true =>
      obtain ⟨rfl, -⟩ := pure_ok hroot
      exact ⟨keyIndex, rfl, congrArg PolicyMapKeyInfo.extPubkey (h.fetched htype hfetch)⟩
  | musig keyIndexes =>
    rw [htype] at hroot
    obtain ⟨keys, s1, -, hroot⟩ := bind_ok hroot
    obtain ⟨rfl, -⟩ := pure_ok hroot
    exact absurd hlen (Nat.lt_irrefl 0)
  | unreadable =>
    rw [htype] at hroot
    cases hroot

/-- A call, successful or not, only remembers the first step of its key. -/
theorem DerivationCall.Consistent.holdsChildren (h : call.Consistent dev wallet keyInfos s)
    (hcache : s.cache.HoldsChildren wallet.policy (IsFirstStep dev keyInfos)) :
    (finalState (call.run dev wallet.header true) s).cache.HoldsChildren wallet.policy
      (IsFirstStep dev keyInfos) := by
  have hkept := keyexprRoot_cache dev wallet.header call.change true call.addressIndex call.key.type s
  rw [DerivationCall.run, getDerivedPubkey_eq]
  cases hroot : keyexprRoot dev (wallet.header.derivation call.change call.addressIndex true)
      call.key.type s with
  | error e s1 =>
    rw [finalState, hroot] at hkept
    rw [finalState, bind_of_error hroot]
    exact hkept ▸ hcache
  | ok root s1 =>
    rw [finalState, hroot] at hkept
    rw [finalState, bind_of_ok hroot]
    have hcache1 : s1.cache.HoldsChildren wallet.policy (IsFirstStep dev keyInfos) := hkept ▸ hcache
    have hrest : Reads (SignPsbtCache.HoldsChildren wallet.policy (IsFirstStep dev keyInfos))
        (fun _ => True) (fun _ => True) (deriveFromRoot dev
          (wallet.header.derivation call.change call.addressIndex true) call.key root) := by
      refine .ite (fun hlen => ?_) fun _ => Within.pure trivial
      obtain ⟨keyIndex, htype, hbase⟩ := h.root_eq hroot hlen
      refine (reads_deriveFirstStepForPubkey h.mem_keys fun child tweak hchild => ?_).bind fun child _ =>
        (reads_ofOption _).bind fun _ _ => Within.pure trivial
      rw [hbase] at hchild
      exact ⟨keyIndex, tweak, htype, hchild⟩
    exact (hrest.finalState hcache1).2

theorem CacheOfCalls.holdsChildren {cache : SignPsbtCache} (h : CacheOfCalls dev wallet keyInfos cache) :
    cache.HoldsChildren wallet.policy (IsFirstStep dev keyInfos) := by
  induction h with
  | start => exact SignPsbtCache.holdsChildren_empty
  | call _ hcall ih => exact hcall.holdsChildren ih

/-- **Every key that a signing run derives with its cache is the one derived without it.** The sessions
only differ in the cache. -/
theorem derivation_cache_transparent {raw : Bytes} {s0 s1 : Session σ}
    (hread : readAndParseWalletPolicy dev raw s0 = .ok wallet s1)
    (hcache : CacheOfCalls dev wallet keyInfos s.cache) (hcall : call.Consistent dev wallet keyInfos s)
    {pubkey : Bytes} (h : call.run dev wallet.header true s = .ok pubkey s') :
    ∃ cache, call.run dev wallet.header false s = .ok pubkey { s' with cache } := by
  obtain ⟨root, s2, hroot, hderive⟩ := bind_ok h
  rw [DerivationCall.run, getDerivedPubkey_eq, keyexprRoot_useCache, bind_of_ok hroot]
  have hkept := keyexprRoot_cache dev wallet.header call.change true call.addressIndex call.key.type s
  rw [finalState, hroot] at hkept
  rw [deriveFromRoot]
  dsimp only at hderive hkept
  split_ifs at hderive ⊢ with hlen
  · obtain ⟨keyIndex, htype, hbase⟩ := hcall.root_eq hroot hlen
    obtain ⟨child, s3, hfirst, hderive⟩ := bind_ok hderive
    obtain ⟨result, s4, hresult, hderive⟩ := bind_ok hderive
    obtain ⟨rfl, rfl⟩ := pure_ok hderive
    obtain ⟨hsecond, rfl⟩ := ofOption_eq_ok_iff.mp hresult
    obtain ⟨horigin, cache, rfl⟩ := deriveFirstStepForPubkey_ok hfirst
    have hchild : ∃ tweak, dev.crypto.bip32CKDpub root.2 (call.key.changeStep call.change) =
        some (child, tweak) := by
      rcases horigin with hcached | hderived
      · rw [hkept] at hcached
        obtain ⟨keyIndex', tweak, htype', hchild⟩ := hcache.holdsChildren
          (readAndParseWalletPolicy_numbered hread) call.key hcall.mem_keys call.change child hcached
        obtain rfl : keyIndex = keyIndex' := KeyExpressionType.normal.inj (htype.symm.trans htype')
        rw [hbase]
        exact ⟨tweak, hchild⟩
      · exact hderived
    obtain ⟨tweak, hchild⟩ := hchild
    have hfirst' : deriveFirstStepForPubkey dev root.2 call.key false call.change s2 = .ok child s2 := by
      simp only [deriveFirstStepForPubkey, hchild]
      simp [ofOption]
    have hsecond' : ofOption (dev.crypto.bip32CKDpub child call.addressIndex) s2 = .ok result s2 :=
      ofOption_eq_ok_iff.mpr ⟨hsecond, rfl⟩
    exact ⟨s2.cache, bind_ok_iff.mpr ⟨child, s2, hfirst', bind_ok_iff.mpr ⟨result, s2, hsecond', rfl⟩⟩⟩
  · obtain ⟨rfl, rfl⟩ := pure_ok hderive
    exact ⟨s2.cache, rfl⟩

end

namespace MasterKey

def originKeyInfo : Bytes :=
  text "[3442193e/0]tpubD6NzVbkrYhZ4XgiXtGrdW5XDAPFCL9h7we1vwNCpn8tGbBcgfVYjXyhWo4E1xkh56hjod1RhGjxbaTLV3X4FyWuejifB9jusQ46QzG87VKp"

def originDevice : Device (List Bool) :=
  { pointDevice wshSortedmultiHash wshSortedmulti with
    env := .known sha256 ⟨[(keysRoot, [originKeyInfo])], [(wshSortedmultiHash, wshSortedmulti)]⟩ }

def originPolicy : Bytes := (request wshSortedmultiHash wshSortedmulti).drop 1

def originCall : DerivationCall := ⟨⟨0, 1, .normal 0, 0⟩, false, 5⟩

def secondCall (wallet : WalletPolicy) : Session (List Bool) :=
  finalState (originCall.run originDevice wallet.header true) session

def SendsOrigin (wallet : WalletPolicy) (s : Session (List Bool)) : Bool :=
  returned? (fetchKeyInfo originDevice wallet.header.version wallet.header.keysInfoMerkleRoot
    wallet.header.nKeys 0) s = some (true, { parsedKeyInfo with masterKeyDerivation := [0] })

theorem originCall_runs :
    (returned? (readAndParseWalletPolicy originDevice originPolicy) session).any (fun wallet =>
      decide (originCall.key ∈ wallet.policy.keys) && SendsOrigin wallet session &&
        SendsOrigin wallet (secondCall wallet) &&
        ((secondCall wallet).cache.derivedChild 0 false).isSome &&
        (returned? (originCall.run originDevice wallet.header true) (secondCall wallet)).isSome) := by
  decide +kernel

theorem originCall_consistent {wallet : WalletPolicy} {s : Session (List Bool)}
    (hkey : originCall.key ∈ wallet.policy.keys) (h : SendsOrigin wallet s) :
    originCall.Consistent originDevice wallet
      (fun _ => { parsedKeyInfo with masterKeyDerivation := [0] }) s := by
  refine ⟨hkey, fun {keyIndex} htype {keyInfo s'} hfetch => ?_⟩
  obtain rfl : 0 = keyIndex := KeyExpressionType.normal.inj htype
  rw [ok_of_returned? (of_decide_eq_true h)] at hfetch
  cases hfetch
  rfl

end MasterKey

open MasterKey in
theorem derivation_cache_transparent_origin :
    ∃ wallet pubkey s' cache, ((secondCall wallet).cache.derivedChild 0 false).isSome ∧
      originCall.run originDevice wallet.header true (secondCall wallet) = .ok pubkey s' ∧
      originCall.run originDevice wallet.header false (secondCall wallet) = .ok pubkey { s' with cache } := by
  obtain ⟨wallet, hread, hwallet⟩ := (Option.any_eq_true _ _).mp originCall_runs
  simp only [Bool.and_eq_true, decide_eq_true_eq] at hwallet
  obtain ⟨⟨⟨⟨hkey, hfirst⟩, hsecond⟩, hcached⟩, hrun⟩ := hwallet
  obtain ⟨pubkey, hpubkey⟩ := Option.isSome_iff_exists.mp hrun
  obtain ⟨cache, h⟩ := derivation_cache_transparent (ok_of_returned? hread)
    (.call .start (originCall_consistent hkey hfirst)) (originCall_consistent hkey hsecond)
    (ok_of_returned? hpubkey)
  exact ⟨wallet, pubkey, _, cache, hcached, ok_of_returned? hpubkey, h⟩

end LedgerBabylon
