import LedgerBabylon.Common.KeyInfoText
import LedgerBabylon.Handler.RegisterWallet
import LedgerBabylon.Handler.Clients
import LedgerBabylon.Lib.Within

/-!
# The size of redeem scripts

The redeem script of a `sh(multi())` or `sh(sortedmulti())` has 34 bytes for each key and 3 bytes
more. A push of more than 520 bytes makes the output unspendable; the parser and the compiler let one
key too many through.
-/

namespace LedgerBabylon

open Endian Exec List

theorem parsePolicyMapKeyInfo_compressed {sha256 : Bytes → Digest} {version : Nat}
    {info : Bytes} {keyInfo : PolicyMapKeyInfo}
    (h : parsePolicyMapKeyInfo sha256 version info = some (true, keyInfo)) :
    keyInfo.extPubkey.compressedPubkey.length = 33 := by
  obtain ⟨origin, key, raw, hparses, rfl⟩ := parsePolicyMapKeyInfo_eq_some_true_iff.mp h
  have hlen := hparses.length
  simp only [denotedKeyInfo, ExtPubkey.ofBytes, length_take, length_drop]
  omega

variable {σ α : Type}

structure Device.KeysCompressed (dev : Device σ) : Prop where
  addPoint {k key sum : Bytes} (h : dev.crypto.addPoint k key = some sum) : sum.length = 33
  musigKeyAgg (keys : List Bytes) : (dev.musigKeyAgg keys).length = 33

def Session.KeysCompressed (s : Session σ) : Prop :=
  ∀ index isChange key, s.cache.derivedChild index isChange = some key → key.compressedPubkey.length = 33

abbrev Gives (P : α → Prop) (x : Query σ α) : Prop := Within Session.KeysCompressed (fun _ _ => True) P x

theorem gives_ask (x : Ask σ α) : Gives (fun _ => True) (ask x) := by
  intro s hs
  unfold ask
  cases x s.env with
  | ok a e => exact ⟨trivial, hs, trivial⟩
  | error fault e => exact ⟨trivial, hs⟩

theorem gives_ofOption (o : Option α) : Gives (o = some ·) (ofOption o : Query σ α) := by
  cases o with
  | none => exact .throw
  | some a => exact .pure rfl

variable {dev : Device σ} {wdi : WalletDerivationInfo}

theorem gives_fetchKeyInfo (version : Nat) (root : Digest) (nKeys keyIndex : Nat) :
    Gives (fun result => result.1 = true → result.2.extPubkey.compressedPubkey.length = 33)
      (fetchKeyInfo dev version root nKeys keyIndex) := by
  refine .bind (gives_ask _) fun answer _ => ?_
  cases answer with
  | ok info =>
    refine .bind (Within.modify fun _ hs => ⟨trivial, hs⟩) fun _ _ => ?_
    cases hparse : parsePolicyMapKeyInfo dev.crypto.sha256 version info with
    | none => exact .throw
    | some result =>
      obtain ⟨ok, keyInfo⟩ := result
      refine .pure fun hok => ?_
      obtain rfl : ok = true := hok
      exact parsePolicyMapKeyInfo_compressed hparse
  | error code =>
    refine .ite (fun _ => .throw) fun _ => ?_
    exact .bind (Within.modify fun _ hs => ⟨trivial, hs⟩) fun _ _ => .throw

theorem gives_getExtendedPubkeyFromClient (keyIndex : Nat) :
    Gives (fun key => key.2.compressedPubkey.length = 33) (getExtendedPubkeyFromClient dev wdi keyIndex) := by
  refine .bind (gives_fetchKeyInfo _ _ _ _) fun result hresult => ?_
  exact .ite (fun hok => .pure (hresult hok)) fun _ => .throw

section

variable (hdev : dev.KeysCompressed)

include hdev

theorem bip32CKDpub_compressed {parent : ExtPubkey} {index : UInt32} {child : ExtPubkey × Bytes}
    (h : dev.crypto.bip32CKDpub parent index = some child) : child.1.compressedPubkey.length = 33 := by
  obtain ⟨-, -, sum, hsum, rfl⟩ := (Crypto.bip32CKDpub_eq_some_iff _).mp h
  exact hdev.addPoint hsum

theorem gives_deriveFirstStepForPubkey (base : ExtPubkey) (keyExpr : KeyExpr) (useCache isChange : Bool) :
    Gives (fun child => child.compressedPubkey.length = 33)
      (deriveFirstStepForPubkey dev base keyExpr useCache isChange) := by
  refine .bind (P := Session.KeysCompressed) (Within.get fun _ hs => hs) fun s hs => ?_
  refine .ite (fun _ => ?_) fun _ => ?_
  · refine .bind (gives_ofOption _) fun child hchild => ?_
    exact .pure (bip32CKDpub_compressed hdev hchild)
  · split
    · next hcached => exact .pure (hs _ _ _ hcached)
    · refine .bind (gives_ofOption _) fun child hchild => ?_
      have hlen := bip32CKDpub_compressed hdev hchild
      refine .bind (Within.modify fun t ht => ⟨trivial, ?_⟩) fun _ _ => .pure hlen
      intro index change key hkey
      simp only [SignPsbtCache.insert] at hkey
      split at hkey
      · cases hkey
        exact hlen
      · exact ht index change key hkey

theorem gives_keyexprRoot (type : KeyExpressionType) :
    Gives (fun key => key.2.compressedPubkey.length = 33) (keyexprRoot dev wdi type) := by
  cases type with
  | normal keyIndex => exact gives_getExtendedPubkeyFromClient keyIndex
  | musig keyIndexes =>
    have hkeys : Gives (fun _ => True) (musigClientKeys dev wdi keyIndexes) := by
      induction keyIndexes with
      | nil => exact .pure trivial
      | cons index indexes ih =>
        refine .bind (gives_getExtendedPubkeyFromClient index) fun _ _ => ?_
        exact ih.bind fun _ _ => .pure trivial
    exact .bind hkeys fun keys _ => .pure (hdev.musigKeyAgg (sortKeys keys))
  | unreadable => exact .throw

theorem gives_getDerivedPubkey (keyExpr : KeyExpr) :
    Gives (fun pubkey => pubkey.length = 33) (getDerivedPubkey dev wdi keyExpr) := by
  refine .bind (gives_keyexprRoot hdev keyExpr.type) fun root hroot => ?_
  refine .ite (fun _ => ?_) fun _ => .pure hroot
  refine .bind (gives_deriveFirstStepForPubkey hdev _ _ _ _) fun child _ => ?_
  refine .bind (gives_ofOption _) fun child' hchild => ?_
  exact .pure (bip32CKDpub_compressed hdev hchild)

theorem gives_smallestPubkey (less : Bytes → Bytes → Bool) (used : List Nat)
    (keys : List KeyExpr) (j : Nat) {best : Option Nat × Bytes} (hbest : best.2.length = 33) :
    Gives (fun best => best.2.length = 33) (smallestPubkey dev wdi less used keys j best) := by
  induction keys generalizing j best with
  | nil => exact .pure hbest
  | cons key keys ih =>
    refine .ite (fun _ => ih _ hbest) fun _ => ?_
    refine .bind (gives_getDerivedPubkey hdev key) fun pubkey hpubkey => ih _ ?_
    split
    · exact hpubkey
    · exact hbest

def CompressedKeys (n : Nat) (pubkeys : List Bytes) : Prop :=
  pubkeys.length = n ∧ ∀ pubkey ∈ pubkeys, pubkey.length = 33

omit hdev in
theorem CompressedKeys.cons {n : Nat} {pubkey : Bytes} {pubkeys : List Bytes}
    (hpubkey : pubkey.length = 33) (h : CompressedKeys n pubkeys) :
    CompressedKeys (n + 1) (pubkey :: pubkeys) :=
  ⟨by rw [length_cons, h.1], forall_mem_cons.mpr ⟨hpubkey, h.2⟩⟩

theorem gives_sortedPubkeys (less : Bytes → Bytes → Bool) (keys : List KeyExpr) (n : Nat)
    (used : List Nat) : Gives (CompressedKeys n) (sortedPubkeys dev wdi less keys n used) := by
  induction n generalizing used with
  | zero => exact .pure ⟨rfl, by simp⟩
  | succ n ih =>
    refine .bind (gives_smallestPubkey hdev less used keys 0 (by simp)) fun best hbest => ?_
    obtain ⟨_ | j, pubkey⟩ := best
    · exact .throw
    · exact .bind (ih (j :: used)) fun rest hrest => .pure (hrest.cons hbest)

theorem gives_pubkeysInOrder (keys : List KeyExpr) :
    Gives (CompressedKeys keys.length) (pubkeysInOrder dev wdi keys) := by
  induction keys with
  | nil => exact .pure ⟨rfl, by simp⟩
  | cons key keys ih =>
    refine .bind (gives_getDerivedPubkey hdev key) fun pubkey hpubkey => ?_
    exact .bind ih fun rest hrest => .pure (hrest.cons hpubkey)

theorem gives_multisigPubkeys (token : MultisigToken) (keys : List KeyExpr) :
    Gives (CompressedKeys keys.length) (multisigPubkeys dev wdi token keys) := by
  cases token with
  | multi | multiA => exact gives_pubkeysInOrder hdev keys
  | sortedmulti | sortedmultiA => exact gives_sortedPubkeys hdev _ keys _ []

omit hdev in
theorem CompressedKeys.length_pushes {n : Nat} {pubkeys : List Bytes}
    (h : CompressedKeys n pubkeys) : (pubkeys.flatMap (0x21 :: ·)).length = 34 * n := by
  obtain ⟨rfl, hall⟩ := h
  induction pubkeys with
  | nil => rfl
  | cons pubkey pubkeys ih =>
    obtain ⟨hpubkey, hrest⟩ := forall_mem_cons.mp hall
    simp only [flatMap_cons, cons_append, length_cons, length_append, hpubkey, ih hrest]
    omega

theorem gives_processMulti (token : MultisigToken) (k : Nat) (keys : List KeyExpr) :
    Gives (fun script => script.length = 34 * keys.length + 3) (processMulti dev wdi false token k keys) := by
  refine .ite (fun _ => .throw) fun _ => ?_
  refine .bind (gives_multisigPubkeys hdev token keys) fun pubkeys hpubkeys => .pure ?_
  simp only [cons_append, length_cons, length_append, hpubkeys.length_pushes, outputOpV]
  simp

/-- The redeem script of a multisig can be pushed exactly if it has at most 15 keys. -/
theorem redeemScript_length_le_iff {flags : Option Miniscript.Typ} {token : MultisigToken} {k : Nat}
    {keys : List KeyExpr} {script : Bytes} {s s' : Session σ} (hs : s.KeysCompressed)
    (h : internalScript dev wdi .sh (.multisig flags token k keys) s = .ok script s') :
    script.length ≤ 520 ↔ keys.length ≤ 15 := by
  have hlen : script.length = 34 * keys.length + 3 := by
    cases token with
    | multi | sortedmulti => exact ((gives_processMulti hdev _ k keys).ok hs h).2.2
    | multiA | sortedmultiA => simp [internalScript, compileNode, fragmentAllowed, maxPolicyDepth] at h
  omega

end

namespace MasterKey

/-- A key info without derivation steps, whose key is used as it is. -/
def keyInfo : Bytes :=
  text "[3442193e]tpubD6NzVbkrYhZ4XgiXtGrdW5XDAPFCL9h7we1vwNCpn8tGbBcgfVYjXyhWo4E1xkh56hjod1RhGjxbaTLV3X4FyWuejifB9jusQ46QzG87VKp"

def keysRoot : Digest := .ofNat 0x086b849d86903f461b3b3f7e9a5235ad7803758a7b5189d919a056a28ff360cb

def pubkey : Bytes := beBytes 33 0x0339a36013301597daef41fbe593a02cc513d0b55527ec2df1050e2e8ff49c85c2

def chainCode : Bytes := beBytes 32 0x873dff81c02f525623fd1fe5167eac3a55a049de3d314bb42ee227ffed37d508

def pubkeyHash : Digest := .ofNat 0xb766246eacc76f47810bbbdcfcdc0b4e54c5983de526c2b660c65a588468e0ab

def payloadHash : Digest := .ofNat 0xda58390a6e5880196dfd62857c0971a58f78476116919c820ba82cad158eebcc

def sha256 : Bytes → Digest := sha256Table
  [(pubkey, pubkeyHash), (beBytes 13 0x043587cf000000000000000000 ++ chainCode ++ pubkey, payloadHash),
    (payloadHash.bytes, .ofNat 0x7b60a5b3dcc784c7a1b914acdacdae54ab86116128b4c9c6c32a59e61165caec)]

def crypto : Crypto where
  pubkeyVersion := 0x043587CF
  sha256
  ripemd160 message :=
    if message = pubkeyHash.bytes then beBytes 20 0x3442193e1bb70916e914552172cd4e2dbc9df811 else []
  hmacSha512 _ _ := []
  addPoint _ _ := none
  addPointXonly _ _ := none
  pubkeyAtPath path := if path = [] then some (pubkey, chainCode) else none
  privkeyAtPath _ := none
  pubkeyOf _ := none
  ecdsaSign _ _ := none
  schnorrSign _ _ := none

def device (templateHash : Digest) (template : Bytes) : Device (List Bool) where
  crypto
  env := .known sha256 ⟨[(keysRoot, [keyInfo])], [(templateHash, template)]⟩
  nbgl := true
  uninitialised _ := 0
  overread _ := 0
  formatScript _ := none
  musigKeyAgg _ := pubkey
  musigNonceAgg _ := (false, ⟨[], []⟩)
  musigNonceGen _ _ _ := none
  musigSign _ _ _ := none
  walletHmac _ := List.replicate 32 0xAA

theorem device_keysCompressed (templateHash : Digest) (template : Bytes) :
    (device templateHash template).KeysCompressed where
  addPoint h := by simp [device, crypto] at h
  musigKeyAgg _ := length_beBytes 33 _

def session : Session (List Bool) := ⟨[true], .empty, []⟩

def request (templateHash : Digest) (template : Bytes) : Bytes :=
  beBytes 8 0x4902055661756c74 ++ [UInt8.ofNat template.length] ++ templateHash.bytes ++ [1] ++ keysRoot.bytes

/-- The template sh(multi(1,@0/<0;1>/*,@0/<2;3>/*,...,@0/<30;31>/*)) with sixteen times the one key. -/
def sixteenKeys : Bytes :=
  text "sh(multi(1,@0/<0;1>/*,@0/<2;3>/*,@0/<4;5>/*,@0/<6;7>/*,@0/<8;9>/*,@0/<10;11>/*,@0/<12;13>/*,@0/<14;15>/*,@0/<16;17>/*,@0/<18;19>/*,@0/<20;21>/*,@0/<22;23>/*,@0/<24;25>/*,@0/<26;27>/*,@0/<28;29>/*,@0/<30;31>/*))"

def sixteenKeysHash : Digest := .ofNat 0x2dceffac57e43353e0d9269aaef587bd424ff8db753f142be9598b78f1e80163

def derivation (wallet : WalletPolicy) : WalletDerivationInfo :=
  ⟨wallet.header.version, wallet.header.keysInfoMerkleRoot, wallet.header.nKeys, false, 0, false⟩

def compileRedeemScript (dev : Device (List Bool)) (wdi : WalletDerivationInfo) :
    PolicyNode → Fetch (List Bool) (Except Int Bytes)
  | .sh (.multisig flags token k keys) =>
    query (internalScript dev wdi .sh (.multisig flags token k keys))
  | _ => fail SW_NOT_SUPPORTED

def redeemScript (dev : Device (List Bool)) (raw : Bytes) : Fetch (List Bool) (Except Int Bytes) := do
  let (wallet, _) ← handlerRegisterWallet dev raw
  compileRedeemScript dev (derivation wallet) wallet.policy

theorem compileRedeemScript_ok {dev : Device (List Bool)} {wdi : WalletDerivationInfo}
    {policy : PolicyNode} {script : Bytes} {s s' : Session (List Bool)}
    (h : compileRedeemScript dev wdi policy s = .ok (.ok script) s') :
    ∃ flags token k keys, policy = .sh (.multisig flags token k keys) ∧
      internalScript dev wdi .sh (.multisig flags token k keys) s = .ok script s' := by
  unfold compileRedeemScript at h
  cases policy with
  | sh core =>
    cases core with
    | multisig flags token k keys =>
      rcases query_ok_iff.mp h with ⟨_, heq, hscript⟩ | ⟨_, heq, -⟩
      · cases heq
        exact ⟨flags, token, k, keys, rfl, hscript⟩
      · cases heq
    | _ => simp at h
  | _ => simp at h

theorem sixteenKeys_length :
    (returned? (redeemScript (device sixteenKeysHash sixteenKeys) (request sixteenKeysHash sixteenKeys))
      session).map (fun script => script.toOption.map length) = some (some 547) := by
  decide +kernel

def twoKeys : WalletDerivationInfo := ⟨2, keysRoot, 1, false, 0, false⟩

theorem twoKeys_script : (returned? (internalScript (device sixteenKeysHash sixteenKeys) twoKeys .sh
      (.multisig none .sortedmulti 1 [⟨0, 1, .normal 0, 0⟩, ⟨2, 3, .normal 0, 1⟩])) session).isSome := by
  decide +kernel

end MasterKey

open MasterKey in
theorem redeemScript_length_le_twoKeys :
    ∃ script s', internalScript (device sixteenKeysHash sixteenKeys) twoKeys .sh
        (.multisig none .sortedmulti 1 [⟨0, 1, .normal 0, 0⟩, ⟨2, 3, .normal 0, 1⟩]) session =
          .ok script s' ∧ script.length ≤ 520 := by
  obtain ⟨script, hscript⟩ := Option.isSome_iff_exists.mp twoKeys_script
  have hok := ok_of_returned? hscript
  have hsession : session.KeysCompressed := fun _ _ _ h => by simp [session, SignPsbtCache.empty] at h
  exact ⟨script, _, hok, (redeemScript_length_le_iff (device_keysCompressed _ _) hsession hok).mpr (by simp)⟩

open MasterKey in
/-- The policy with sixteen keys is registered, and its redeem script is too long. -/
theorem not_redeemScript_length_le : ∃ wallet response s t flags token k keys script,
      handlerRegisterWallet (device sixteenKeysHash sixteenKeys) (request sixteenKeysHash sixteenKeys)
        session = .ok (wallet, response) s ∧
      wallet.policy = .sh (.multisig flags token k keys) ∧
      internalScript (device sixteenKeysHash sixteenKeys) (derivation wallet) .sh
        (.multisig flags token k keys) s = .ok script t ∧ 520 < script.length := by
  obtain ⟨answer, hanswer, hlen⟩ := Option.map_eq_some_iff.mp sixteenKeys_length
  obtain ⟨⟨wallet, response⟩, s, hregister, hcompile⟩ := bind_ok (ok_of_returned? hanswer)
  cases answer with
  | error code => cases hlen
  | ok script =>
    obtain ⟨flags, token, k, keys, hpolicy, hscript⟩ := compileRedeemScript_ok hcompile
    refine ⟨wallet, response, s, _, flags, token, k, keys, script, hregister, hpolicy, hscript, ?_⟩
    have hlen : script.length = 547 := Option.some.inj hlen
    omega

end LedgerBabylon
