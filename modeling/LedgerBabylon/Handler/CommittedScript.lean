import LedgerBabylon.Handler.Clients
import LedgerBabylon.Handler.PolicyNumbering
import LedgerBabylon.Handler.PolicyUses
import LedgerBabylon.Lib.Refinement

/-!
# The script of the committed keys

The scripts of a policy are computed from key infos that the client is asked for again and again, and
from a cache. If the client can only answer with what it has committed to, the script is a function of
the commitment, the change flag and the address index. The cache holds first derivation steps, and the
number of a key expression stands for no other one.
-/

namespace LedgerBabylon

open Exec List
open PolicyNode hiding keys

variable {base : ExtPubkey} {root : Nat × ExtPubkey} {version : Nat}
  {less : Bytes → Bytes → Bool} {wallet : WalletPolicy}
  {Child : KeyExpr → Bool → ExtPubkey → Prop} {key keyExpr : KeyExpr} {keyIndex : Nat}
  {tree : PolicyTree PolicyNode} {script : PolicyNode} {keys : List KeyExpr} {raw : Bytes}
  {node : PolicyNode}

variable {σ τ α : Type}

def Device.withEnv (dev : Device σ) (env : Environment τ) : Device τ := { dev with env }

def SignPsbtCache.HoldsChildren (policy : PolicyNode) (Child : KeyExpr → Bool → ExtPubkey → Prop)
    (cache : SignPsbtCache) : Prop :=
  policy.Numbered → ∀ key ∈ policy.keys, ∀ change child,
    cache.derivedChild key.keyexprIndex.toNat change = some child → Child key change child

theorem SignPsbtCache.holdsChildren_empty {policy : PolicyNode} : SignPsbtCache.empty.HoldsChildren policy Child :=
  fun _ _ _ _ _ h => absurd h (Option.some_ne_none _).symm

theorem SignPsbtCache.HoldsChildren.insert {policy : PolicyNode} {cache : SignPsbtCache}
    (h : cache.HoldsChildren policy Child) (hkey : key ∈ policy.keys) {change : Bool}
    {child : ExtPubkey} (hchild : Child key change child) :
    (cache.insert key.keyexprIndex.toNat change child).HoldsChildren policy Child := by
  intro hnumbered key' hkey' change' child' hcached
  by_cases hsame : key'.keyexprIndex.toNat = key.keyexprIndex.toNat ∧ change' = change
  · obtain ⟨hindex, rfl⟩ := hsame
    obtain rfl := hnumbered key' hkey' key hkey (UInt16.toNat_inj.mp hindex)
    obtain rfl : child = child' := by simpa [SignPsbtCache.insert] using hcached
    exact hchild
  · refine h hnumbered key' hkey' change' child' ?_
    simpa [SignPsbtCache.insert, hsame] using hcached

/-- The first step is only remembered for the key expression whose child it is. -/
theorem reads_deriveFirstStepForPubkey {dev : Device σ} {policy : PolicyNode} {J : ArrayUse → Prop}
    (hkey : key ∈ policy.keys) {useCache change : Bool}
    (hchild : ∀ child tweak, dev.crypto.bip32CKDpub base (key.changeStep change) = some (child, tweak) →
      Child key change child) :
    Reads (SignPsbtCache.HoldsChildren policy Child) J (fun _ => True)
      (deriveFirstStepForPubkey dev base key useCache change) := by
  refine .bind (Within.get (P := fun _ => True) fun _ _ => trivial) fun s _ => ?_
  refine .ite (fun _ => ?_) fun _ => ?_
  · exact (reads_ofOption _).bind fun _ _ => .pure trivial
  · split
    · exact .pure trivial
    · refine (reads_ofOption _).bind fun result hresult => ?_
      refine .bind (Within.modify fun s hs => ⟨.of_eq rfl, ?_⟩) fun _ _ => .pure trivial
      exact hs.insert hkey (hchild result.1 result.2 hresult)

section

variable (dev : Device σ) (header : PolicyMapWalletHeader)

abbrev Device.KeyInfoAt (index : UInt32) (info : Bytes) : Prop :=
  Answered (dev.env.leafElement header.keysInfoMerkleRoot (UInt32.ofNat header.nKeys) index
    maxPolicyKeyInfoLen) info

def Device.RootKey (keyIndex : Nat) (root : Nat × ExtPubkey) : Prop :=
  ∃ info keyInfo, dev.KeyInfoAt header (UInt32.ofNat keyIndex) info ∧
    parsePolicyMapKeyInfo dev.crypto.sha256 header.version info = some (true, keyInfo) ∧
    root = scriptKey keyInfo

def Device.FirstChild (key : KeyExpr) (change : Bool) (child : ExtPubkey) : Prop :=
  ∃ keyIndex root tweak, key.type = .normal keyIndex ∧ dev.RootKey header keyIndex root ∧
    dev.crypto.bip32CKDpub root.2 (key.changeStep change) = some (child, tweak)

def Device.CacheCoherent (policy : PolicyNode) (cache : SignPsbtCache) : Prop :=
  policy.Numbered → ∀ key ∈ policy.keys, ∀ change child,
    cache.derivedChild key.keyexprIndex.toNat change = some child → dev.FirstChild header key change child

def Device.ServedBy (env : Environment τ) : Prop := ∀ index info, dev.KeyInfoAt header index info →
    ∀ e, ∃ e', env.leafElement header.keysInfoMerkleRoot (UInt32.ofNat header.nKeys) index
      maxPolicyKeyInfoLen e = .ok info e'

end

section

variable {dev : Device σ} {env : Environment τ} {header : PolicyMapWalletHeader} {policy : PolicyNode}

theorem Device.cacheCoherent_empty : dev.CacheCoherent header policy .empty :=
  SignPsbtCache.holdsChildren_empty

theorem Device.ServedBy.rootKey_unique [Nonempty τ] (h : dev.ServedBy header env)
    {root' : Nat × ExtPubkey} (hroot : dev.RootKey header keyIndex root)
    (hroot' : dev.RootKey header keyIndex root') : root = root' := by
  obtain ⟨info, keyInfo, hinfo, hparse, rfl⟩ := hroot
  obtain ⟨info', keyInfo', hinfo', hparse', rfl⟩ := hroot'
  let e : τ := Classical.arbitrary τ
  obtain ⟨e1, he⟩ := h _ _ hinfo e
  obtain ⟨e2, he'⟩ := h _ _ hinfo' e
  rw [he] at he'
  cases he'
  rw [hparse] at hparse'
  cases hparse'
  rfl

theorem fetchKeyInfo_of_answer {nKeys : Nat} {root : Digest} {info : Bytes}
    {result : Bool × PolicyMapKeyInfo} {s : Session σ} {e : σ}
    (hinfo : dev.env.leafElement root (UInt32.ofNat nKeys) (UInt32.ofNat keyIndex) maxPolicyKeyInfoLen
      s.env = .ok info e)
    (hparse : parsePolicyMapKeyInfo dev.crypto.sha256 version info = some result) :
    ∃ s', fetchKeyInfo dev version root nKeys keyIndex s = .ok result s' := by
  have hask : ask (attempt (dev.env.leafElement root (UInt32.ofNat nKeys) (UInt32.ofNat keyIndex)
      maxPolicyKeyInfoLen)) s = .ok (.ok info) { s with env := e } := by
    simp only [ask, attempt, hinfo]
  have hresult : ∃ s', parseKeyInfo dev version info { s with env := e } = .ok result s' := by
    simp only [parseKeyInfo, hparse]
    exact ⟨_, rfl⟩
  obtain ⟨s', hresult⟩ := hresult
  exact ⟨s', bind_ok_iff.mpr ⟨_, _, hask, hresult⟩⟩

end

section

variable {dev : Device σ} {env : Environment τ} {header : PolicyMapWalletHeader}
  {C : SignPsbtCache → Prop} {change useCache : Bool} {addressIndex : UInt32}

abbrev RefinesKeys (dev : Device σ) (env : Environment τ) (header : PolicyMapWalletHeader)
    (C : SignPsbtCache → Prop) (Q : Prop) (P : α → Prop) (x : Query σ α) (y : Query τ α) : Prop :=
  Refines (fun s => C s.cache) (Uses (KeyInfoUse dev header.version header.keysInfoMerkleRoot header.nKeys))
    (dev.ServedBy header env ∧ Q) P x y

theorem refines_getExtendedPubkeyFromClient {Q : Prop} (keyIndex : Nat) :
    RefinesKeys dev env header C Q (dev.RootKey header keyIndex)
      (getExtendedPubkeyFromClient dev (header.derivation change addressIndex useCache) keyIndex)
      (getExtendedPubkeyFromClient (dev.withEnv env) (header.derivation change addressIndex false)
        keyIndex) := by
  have hwithin : Reads C (KeyInfoUse dev header.version header.keysInfoMerkleRoot header.nKeys)
      (dev.RootKey header keyIndex)
      (getExtendedPubkeyFromClient dev (header.derivation change addressIndex useCache) keyIndex) := by
    refine .bind (reads_fetchKeyInfo keyIndex) fun result hresult => ?_
    obtain ⟨info, hinfo, hparse⟩ := hresult
    refine .ite (fun hok => .pure ?_) fun _ => .throw
    obtain ⟨ok, keyInfo⟩ := result
    obtain rfl : ok := hok
    exact ⟨info, keyInfo, hinfo, hparse, rfl⟩
  refine ⟨hwithin, fun hQ s root s' hs hx t => ?_⟩
  obtain ⟨info, keyInfo, hinfo, hparse, rfl⟩ := (hwithin.ok hs hx).2.2
  obtain ⟨e, he⟩ := hQ.1 _ _ hinfo t.env
  have hanswer : (dev.withEnv env).env.leafElement header.keysInfoMerkleRoot
      (UInt32.ofNat header.nKeys) (UInt32.ofNat keyIndex) maxPolicyKeyInfoLen t.env = .ok info e := he
  obtain ⟨t', ht⟩ := fetchKeyInfo_of_answer hanswer hparse
  exact ⟨t', bind_ok_iff.mpr ⟨_, _, ht, rfl⟩⟩

theorem refines_musigClientKeys {Q : Prop} (keyIndexes : List Nat) :
    RefinesKeys dev env header C Q (fun _ => True)
      (musigClientKeys dev (header.derivation change addressIndex useCache) keyIndexes)
      (musigClientKeys (dev.withEnv env) (header.derivation change addressIndex false) keyIndexes) := by
  induction keyIndexes with
  | nil => exact .pure trivial
  | cons keyIndex keyIndexes ih =>
    refine (refines_getExtendedPubkeyFromClient keyIndex).bind fun root _ => ?_
    exact ih.then_pure fun _ _ => trivial

theorem refines_keyexprRoot {Q : Prop} (type : KeyExpressionType) : RefinesKeys dev env header C Q
      (fun root => 0 < root.1 → ∃ keyIndex, type = .normal keyIndex ∧ dev.RootKey header keyIndex root)
      (keyexprRoot dev (header.derivation change addressIndex useCache) type)
      (keyexprRoot (dev.withEnv env) (header.derivation change addressIndex false) type) := by
  cases type with
  | normal keyIndex =>
    refine (refines_getExtendedPubkeyFromClient keyIndex).mono fun root hroot _ => ?_
    exact ⟨keyIndex, rfl, hroot⟩
  | musig keyIndexes =>
    exact (refines_musigClientKeys keyIndexes).then_pure fun _ _ h => absurd h (Nat.lt_irrefl 0)
  | unreadable => exact .throw

theorem refines_ofOption {I : Session σ → Prop} {R : Session σ → Session σ → Prop} [Evolution R]
    {Q : Prop} (o : Option α) :
    Refines I R Q (fun _ => True) (ofOption o : Query σ α) (ofOption o : Query τ α) := by
  cases o with
  | none => exact .throw
  | some a => exact .pure trivial

theorem ofOption_eq_ok_iff {o : Option α} {s s' : Session σ} {a : α} :
    ofOption o s = .ok a s' ↔ o = some a ∧ s = s' := by
  cases o with
  | none => simp [ofOption]
  | some b => simp [ofOption]

theorem deriveFirstStepForPubkey_ok {child : ExtPubkey} {isChange : Bool}
    {s s' : Session σ} (h : deriveFirstStepForPubkey dev base keyExpr useCache isChange s = .ok child s') :
    (s.cache.derivedChild keyExpr.keyexprIndex.toNat isChange = some child ∨
      ∃ tweak, dev.crypto.bip32CKDpub base (keyExpr.changeStep isChange) = some (child, tweak)) ∧
    ∃ cache, s' = { s with cache } := by
  rw [deriveFirstStepForPubkey, get_bind_apply] at h
  dsimp only at h
  split_ifs at h
  · obtain ⟨result, s1, hresult, h⟩ := bind_ok h
    obtain ⟨rfl, rfl⟩ := pure_ok h
    obtain ⟨hchild, rfl⟩ := ofOption_eq_ok_iff.mp hresult
    exact ⟨.inr ⟨result.2, hchild⟩, s.cache, rfl⟩
  · cases hcached : s.cache.derivedChild keyExpr.keyexprIndex.toNat isChange with
    | some cached =>
      rw [hcached] at h
      obtain ⟨rfl, rfl⟩ := pure_ok h
      exact ⟨.inl rfl, s.cache, rfl⟩
    | none =>
      rw [hcached] at h
      obtain ⟨result, s1, hresult, h⟩ := bind_ok h
      obtain ⟨_, s2, hstored, h⟩ := bind_ok h
      obtain ⟨rfl, rfl⟩ := pure_ok h
      obtain ⟨hchild, rfl⟩ := ofOption_eq_ok_iff.mp hresult
      obtain rfl := modify_ok_iff.mp hstored
      exact ⟨.inr ⟨result.2, hchild⟩, _, rfl⟩

variable [Nonempty τ] {policy : PolicyNode}

theorem refines_deriveFirstStepForPubkey (hkey : key ∈ policy.keys)
    (htype : key.type = .normal keyIndex) (hroot : dev.RootKey header keyIndex root) :
    RefinesKeys dev env header (dev.CacheCoherent header policy) policy.Numbered (fun _ => True)
      (deriveFirstStepForPubkey dev root.2 key useCache change)
      (deriveFirstStepForPubkey (dev.withEnv env) root.2 key false change) := by
  refine ⟨?_, fun hQ s child s' hs hx t => ?_⟩
  · exact reads_deriveFirstStepForPubkey hkey fun child tweak hchild =>
      ⟨keyIndex, root, tweak, htype, hroot, hchild⟩
  · obtain ⟨tweak, hchild⟩ :
        ∃ tweak, dev.crypto.bip32CKDpub root.2 (key.changeStep change) = some (child, tweak) := by
      rcases (deriveFirstStepForPubkey_ok hx).1 with hcached | hderived
      · obtain ⟨keyIndex', root', tweak, htype', hroot', hchild⟩ := hs hQ.2 key hkey change child hcached
        obtain rfl : keyIndex = keyIndex' := by simpa [htype] using htype'
        rw [hQ.1.rootKey_unique hroot hroot']
        exact ⟨tweak, hchild⟩
      · exact hderived
    have hsame : (dev.withEnv env).crypto.bip32CKDpub root.2 (key.changeStep change) =
        some (child, tweak) := hchild
    simp only [deriveFirstStepForPubkey, hsame]
    exact ⟨t, by simp [ofOption]⟩

theorem refines_getDerivedPubkey (hkey : key ∈ policy.keys) :
    RefinesKeys dev env header (dev.CacheCoherent header policy) policy.Numbered (fun _ => True)
      (getDerivedPubkey dev (header.derivation change addressIndex useCache) key)
      (getDerivedPubkey (dev.withEnv env) (header.derivation change addressIndex false) key) := by
  refine (refines_keyexprRoot key.type).bind fun root hroot => ?_
  refine .ite (fun hlen => ?_) fun _ => Refines.pure trivial
  obtain ⟨keyIndex, htype, hroot⟩ := hroot hlen
  refine (refines_deriveFirstStepForPubkey hkey htype hroot).bind fun child _ => ?_
  exact (refines_ofOption (dev.crypto.bip32CKDpub child addressIndex)).bind fun _ _ => Refines.pure trivial

end

theorem PolicyNode.mem_keys_of_own (h : key ∈ node.ownKeys) : key ∈ node.keys := by
  cases node with
  | tr key' tree => exact mem_cons.mpr (.inl (mem_singleton.mp h))
  | withKey flags token key' => exact h
  | multisig flags token k keys =>
    simpa [PolicyNode.keys, PolicyNode.keyexprs, PolicyNode.ownKeys, Function.comp_def] using h
  | _ => cases h

theorem PolicyNode.mem_keys_of_child {node x : PolicyNode} (hx : x ∈ node.children)
    (h : key ∈ x.keys) : key ∈ node.keys := by
  have hlist {xs : List PolicyNode} (hx : x ∈ xs) : key ∈ (keyexprsList xs).map Prod.fst := by
    induction xs with
    | nil => cases hx
    | cons y ys ih =>
      rw [keyexprsList, map_append, mem_append]
      rcases mem_cons.mp hx with rfl | hx
      · exact .inl h
      · exact .inr (ih hx)
  cases node with
  | thresh flags k xs => exact hlist hx
  | wrapper flags token y =>
    obtain rfl := mem_singleton.mp hx
    simpa using h
  | andor | withScript2 =>
    simp only [children, mem_cons, not_mem_nil, or_false] at hx
    simp only [keys, keyexprs, map_append, mem_append] at h ⊢
    rcases hx with rfl | rfl | rfl <;> simp [h]
  | _ => cases hx

theorem mem_treeKeys_of_leaf
    (hscript : script ∈ tree.leaves) (h : key ∈ script.keys) : key ∈ treeKeys tree := by
  induction tree with
  | leaf script' =>
    obtain rfl := mem_singleton.mp hscript
    simpa [treeKeys, keyexprsTree, PolicyNode.keys, Function.comp_def] using h
  | branch l r ihl ihr =>
    rw [treeKeys, keyexprsTree, map_append, mem_append]
    exact (mem_append.mp hscript).imp ihl ihr

theorem PolicyNode.mem_keys_of_leaf {key' : KeyExpr} {tree : Option (PolicyTree PolicyNode)}
    {t : PolicyTree PolicyNode} (ht : t ∈ tree) (hscript : script ∈ t.leaves)
    (h : key ∈ script.keys) : key ∈ (tr key' tree).keys := by
  obtain rfl : tree = some t := ht
  exact mem_cons_of_mem _ (mem_treeKeys_of_leaf hscript h)

theorem mem_leaves_of_mem_keyexprsTree
    {leaf : PolicyNode} (h : (keyExpr, some leaf) ∈ keyexprsTree tree) : leaf ∈ tree.leaves := by
  induction tree with
  | leaf script =>
    obtain ⟨_, -, hfound⟩ := mem_map.mp h
    cases hfound
    exact mem_singleton.mpr rfl
  | branch l r ihl ihr => exact mem_append.mpr ((mem_append.mp h).imp ihl ihr)

theorem PolicyNode.mem_keys_of_tapleaf {policy leaf : PolicyNode}
    (h : (keyExpr, some leaf) ∈ policy.keyexprs) (hkey : key ∈ leaf.keys) : key ∈ policy.keys := by
  have hlist {xs : List PolicyNode} (h : (keyExpr, some leaf) ∈ keyexprsList xs) :
      ∃ x ∈ xs, (keyExpr, some leaf) ∈ x.keyexprs := by
    induction xs with
    | nil => cases h
    | cons x xs ih =>
      rcases mem_append.mp h with h | h
      · exact ⟨x, mem_cons_self, h⟩
      · obtain ⟨y, hy, hmem⟩ := ih h
        exact ⟨y, mem_cons_of_mem _ hy, hmem⟩
  induction policy using induction with
  | tr key' tree _ =>
    cases tree with
    | none => simp [keyexprs, keyexprsTr] at h
    | some tree =>
      have hmem : (keyExpr, some leaf) ∈ keyexprsTree tree := by
        simpa [keyexprs, keyexprsTr] using h
      exact mem_keys_of_leaf rfl (mem_leaves_of_mem_keyexprsTree hmem) hkey
  | sh x ih => rw [keys_sh]; exact ih h
  | wsh x ih => rw [keys_wsh]; exact ih h
  | wrapper flags token x ih => rw [keys_wrapper]; exact ih h
  | thresh flags k xs ih =>
    obtain ⟨x, hx, h⟩ := hlist h
    exact mem_keys_of_child hx (ih x hx h)
  | withScript2 flags token x y hx hy =>
    rcases mem_append.mp h with h | h
    · exact mem_keys_of_child (by simp [children]) (hx h)
    · exact mem_keys_of_child (by simp [children]) (hy h)
  | andor flags x y z hx hy hz =>
    rcases mem_append.mp h with h | h
    · rcases mem_append.mp h with h | h
      · exact mem_keys_of_child (by simp [children]) (hx h)
      · exact mem_keys_of_child (by simp [children]) (hy h)
    · exact mem_keys_of_child (by simp [children]) (hz h)
  | _ => simp [keyexprs] at h

section

-- the keys that can be derived, in any way that agrees in both environments
variable {I : Session σ → Prop} {R : Session σ → Session σ → Prop} [Evolution R] {Q : Prop}
  {K : KeyExpr → Prop} {dev : Device σ} {env : Environment τ} {wdi wdi' : WalletDerivationInfo}
  (hkey : ∀ key, K key → Refines I R Q (fun _ => True) (getDerivedPubkey dev wdi key)
    (getDerivedPubkey (dev.withEnv env) wdi' key))
  {isTaproot : Bool}

section

include hkey

theorem refines_smallestPubkey {used : List Nat} (hkeys : ∀ key ∈ keys, K key) (j : Nat) (best : Option Nat × Bytes) :
    Refines I R Q (fun _ => True) (smallestPubkey dev wdi less used keys j best)
      (smallestPubkey (dev.withEnv env) wdi' less used keys j best) := by
  induction keys generalizing j best with
  | nil => exact .pure trivial
  | cons key keys ih =>
    obtain ⟨hfirst, hrest⟩ := forall_mem_cons.mp hkeys
    refine .ite (fun _ => ih hrest _ _) fun _ => ?_
    exact (hkey key hfirst).bind fun _ _ => ih hrest _ _

theorem refines_sortedPubkeys (hkeys : ∀ key ∈ keys, K key) (n : Nat) (used : List Nat) :
    Refines I R Q (fun _ => True) (sortedPubkeys dev wdi less keys n used)
      (sortedPubkeys (dev.withEnv env) wdi' less keys n used) := by
  induction n generalizing used with
  | zero => exact .pure trivial
  | succ n ih =>
    refine (refines_smallestPubkey hkey hkeys 0 _).bind fun best _ => ?_
    obtain ⟨_ | j, pubkey⟩ := best
    · exact .throw
    · exact (ih _).then_pure fun _ _ => trivial

theorem refines_pubkeysInOrder (hkeys : ∀ key ∈ keys, K key) :
    Refines I R Q (fun _ => True) (pubkeysInOrder dev wdi keys)
      (pubkeysInOrder (dev.withEnv env) wdi' keys) := by
  induction keys with
  | nil => exact .pure trivial
  | cons key keys ih =>
    obtain ⟨hfirst, hrest⟩ := forall_mem_cons.mp hkeys
    exact (hkey key hfirst).bind fun _ _ => (ih hrest).then_pure fun _ _ => trivial

theorem refines_multisigPubkeys (token : MultisigToken) (hkeys : ∀ key ∈ keys, K key) :
    Refines I R Q (fun _ => True) (multisigPubkeys dev wdi token keys)
      (multisigPubkeys (dev.withEnv env) wdi' token keys) := by
  cases token with
  | multi | multiA => exact refines_pubkeysInOrder hkey hkeys
  | sortedmulti | sortedmultiA => exact refines_sortedPubkeys hkey hkeys _ _

theorem refines_processMultisig (flagV : Bool) (token : MultisigToken) (k : Nat)
    (hkeys : ∀ key ∈ keys, K key) :
    Refines I R Q (fun _ => True) (processMultisig dev wdi flagV token k keys)
      (processMultisig (dev.withEnv env) wdi' flagV token k keys) := by
  cases token <;> exact .ite (fun _ => Refines.throw) fun _ =>
    (refines_multisigPubkeys hkey _ hkeys).then_pure fun _ _ => trivial

end

section

variable {child : Bool → PolicyNode → Query σ Bytes} {child' : Bool → PolicyNode → Query τ Bytes}

include hkey in
theorem refines_processCommands {commands : List ProcessorCommand} (flagV : Bool)
    (hkeys : ∀ key ∈ commands.flatMap ProcessorCommand.keys, K key)
    (hchild : ∀ flag, ∀ script ∈ commands.flatMap ProcessorCommand.scripts,
      Refines I R Q (fun _ => True) (child flag script) (child' flag script)) :
    Refines I R Q (fun _ => True) (processCommands dev wdi isTaproot child flagV commands)
      (processCommands (dev.withEnv env) wdi' isTaproot child' flagV commands) := by
  induction commands with
  | nil => exact .pure trivial
  | cons command commands ih =>
    rw [flatMap_cons, forall_mem_append] at hkeys
    simp only [flatMap_cons, forall_mem_append] at hchild
    refine .bind (P := fun _ => True) ?_ fun _ _ =>
      (ih hkeys.2 fun flag => (hchild flag).2).then_pure fun _ _ => trivial
    cases command with
    | pushPk key | pushPkh key =>
      exact (hkey key (hkeys.1 key (by simp [ProcessorCommand.keys]))).then_pure fun _ _ => trivial
    | processChild script | processChildV script | processChildVV script =>
      exact (hchild _).1 script (by simp [ProcessorCommand.scripts])
    | _ => exact .pure trivial

theorem refines_threshChildren {scripts : List PolicyNode} (step : Nat) (hchild : ∀ flag, ∀ script ∈ scripts,
      Refines I R Q (fun _ => True) (child flag script) (child' flag script)) :
    Refines I R Q (fun _ => True) (threshChildren child scripts step)
      (threshChildren child' scripts step) := by
  induction scripts generalizing step with
  | nil => exact .pure trivial
  | cons script scripts ih =>
    refine (hchild false script mem_cons_self).bind fun _ _ => ?_
    exact (ih _ fun flag x hx => hchild flag x (mem_cons_of_mem _ hx)).then_pure fun _ _ => trivial

include hkey in
theorem refines_processNode (flagV : Bool) (hkeys : ∀ key ∈ node.ownKeys, K key)
    (hchild : ∀ flag, ∀ x ∈ node.children, Refines I R Q (fun _ => True) (child flag x) (child' flag x)) :
    Refines I R Q (fun _ => True) (processNode dev wdi isTaproot child flagV node)
      (processNode (dev.withEnv env) wdi' isTaproot child' flagV node) := by
  cases hcommands : node.commands? with
  | some commands =>
    obtain ⟨hown, hscripts⟩ := mem_commands hcommands
    rw [processNode_of_commands hcommands, processNode_of_commands hcommands]
    simp only [← hown, ← hscripts] at hkeys hchild
    exact refines_processCommands hkey flagV hkeys hchild
  | none =>
    cases node with
    | multisig flags token k keys => exact refines_processMultisig hkey flagV token k hkeys
    | thresh flags k scripts => exact (refines_threshChildren 0 hchild).then_pure fun _ _ => trivial
    | withKey flags token key =>
      have hpubkey := hkey key (hkeys key (by simp [ownKeys]))
      cases token with
      | pkh =>
        refine .then_pure (P := fun _ => True) ?_ fun _ _ => trivial
        exact hpubkey.then_pure fun _ _ => trivial
      | wpkh =>
        refine hpubkey.bind fun _ _ => ?_
        exact .ite (fun _ => Refines.throw) fun _ => Refines.pure trivial
      | _ => cases hcommands
    | sh | wsh | tr => exact .throw
    | _ => cases hcommands

end

include hkey

theorem refines_compileNode (type : InternalScriptType) (room : Nat) (flagV : Bool)
    (hkeys : ∀ key ∈ node.keys, K key) :
    Refines I R Q (fun _ => True) (compileNode dev wdi type room flagV node)
      (compileNode (dev.withEnv env) wdi' type room flagV node) := by
  induction room generalizing flagV node with
  | zero => exact .throw
  | succ room ih =>
    refine .ite (fun _ => ?_) fun _ => Refines.throw
    refine refines_processNode hkey flagV (fun key hmem => hkeys key (mem_keys_of_own hmem))
      fun flag x hx => ih flag fun key hmem => hkeys key (mem_keys_of_child hx hmem)

theorem refines_computeTapleafHash (hkeys : ∀ key ∈ script.keys, K key) :
    Refines I R Q (fun _ => True) (computeTapleafHash dev wdi script)
      (computeTapleafHash (dev.withEnv env) wdi' script) := by
  have hscript := refines_compileNode hkey .tapscript maxPolicyDepth false hkeys
  exact hscript.bind fun _ _ => hscript.then_pure fun _ _ => trivial

theorem refines_computeTaptreeHash (hkeys : ∀ script ∈ tree.leaves, ∀ key ∈ script.keys, K key) :
    Refines I R Q (fun _ => True) (computeTaptreeHash dev wdi tree)
      (computeTaptreeHash (dev.withEnv env) wdi' tree) := by
  induction tree with
  | leaf script => exact refines_computeTapleafHash hkey (hkeys script (mem_singleton_self script))
  | branch l r ihl ihr =>
    obtain ⟨hl, hr⟩ := forall_mem_append.mp hkeys
    exact (ihl hl).bind fun _ _ => (ihr hr).then_pure fun _ _ => trivial

theorem refines_taptreeHashIfAny {tree : Option (PolicyTree PolicyNode)}
    (hkeys : ∀ t ∈ tree, ∀ script ∈ t.leaves, ∀ key ∈ script.keys, K key) :
    Refines I R Q (fun _ => True) (taptreeHashIfAny dev wdi tree)
      (taptreeHashIfAny (dev.withEnv env) wdi' tree) := by
  cases tree with
  | none => exact .pure trivial
  | some tree => exact (refines_computeTaptreeHash hkey (hkeys tree rfl)).then_pure fun _ _ => trivial

theorem refines_getWalletScript {policy : PolicyNode} (hkeys : ∀ key ∈ policy.keys, K key) :
    Refines I R Q (fun _ => True) (getWalletScript dev policy wdi)
      (getWalletScript (dev.withEnv env) policy wdi') := by
  have hscript (type : InternalScriptType) {core : PolicyNode} (h : ∀ key ∈ core.keys, K key) :
      Refines I R Q (fun _ => True) (scriptOfHash dev wdi type core)
        (scriptOfHash (dev.withEnv env) wdi' type core) :=
    (refines_compileNode hkey type maxPolicyDepth false h).then_pure fun _ _ => trivial
  cases policy with
  | withKey flags token key =>
    have hpubkey := hkey key (hkeys key (mem_keys_of_own (by simp [ownKeys])))
    cases token with
    | pkh | wpkh => exact hpubkey.then_pure fun _ _ => trivial
    | _ => exact .throw
  | sh core =>
    rw [keys_sh] at hkeys
    cases core with
    | wsh core =>
      rw [keys_wsh] at hkeys
      exact hscript .shWsh hkeys
    | _ => exact hscript .sh hkeys
  | wsh core =>
    rw [keys_wsh] at hkeys
    exact hscript .wsh hkeys
  | tr key tree =>
    refine (hkey key (hkeys key (by simp [PolicyNode.keys, keyexprs]))).bind fun pubkey _ => ?_
    refine .bind (P := fun _ => True) ?_ fun h _ => ?_
    · refine refines_taptreeHashIfAny hkey fun t ht script hscript key' hkey' => hkeys key' ?_
      exact mem_keys_of_leaf ht hscript hkey'
    · unfold taprootScript
      have hsame (x y : Bytes) :
          (dev.withEnv env).crypto.trTweakPubkey x y = dev.crypto.trTweakPubkey x y := rfl
      simp only [hsame]
      cases dev.crypto.trTweakPubkey (pubkey.drop 1) ((h.map Digest.bytes).getD []) with
      | some tweaked => exact .pure trivial
      | none =>
        cases h with
        | some h => exact .pure trivial
        | none => exact .throw
  | _ => exact .throw

end

/-- What the client has committed to: a fetch that succeeds returns the committed element. -/
structure Commitments (env : Environment σ) where
  element (root : Digest) (size index : UInt32) : Bytes
  leafElement {root : Digest} {size index : UInt32} {outLen : Nat} {v : Bytes}
    (h : Answered (env.leafElement root size index outLen) v) : v = element root size index

/-- A client that answers every request for an element with the committed one, and no other request. -/
def Environment.committed (element : Digest → UInt32 → UInt32 → Bytes) : Environment Unit where
  preimage _ _ := throw (.ret (-1))
  leafElement root size index _ := return element root size index
  mapValue _ _ _ := throw (.ret (-1))
  streamMapValue _ _ := throw (.ret (-1))
  rawtx _ _ _ := throw (.ret (-1))
  bip32Derivation _ _ _ _ := throw (.ret (-1))
  yield _ := throw (.ret (-1))
  sendSw _ _ := throw (.ret (-1))
  confirm _ := throw (.ret (-1))
  musigRound2 _ := throw (.ret (-1))

namespace Commitments

variable {dev : Device σ} (c : Commitments dev.env) (header : PolicyMapWalletHeader)

abbrev device : Device Unit := dev.withEnv (.committed c.element)

def result (x : Query Unit α) : Option α := returned? x ⟨(), .empty, []⟩

def walletScript (policy : PolicyNode) (change : Bool) (addressIndex : UInt32) : Option Bytes :=
  result (getWalletScript c.device policy (header.derivation change addressIndex false))

def tapleafHash (leaf : PolicyNode) (change : Bool) (addressIndex : UInt32) : Option Digest :=
  result (computeTapleafHash c.device (header.derivation change addressIndex false) leaf)

theorem servedBy : dev.ServedBy header (Environment.committed c.element) := by
  intro index info hinfo e
  rw [c.leafElement hinfo]
  exact ⟨e, rfl⟩

variable {header} {policy : PolicyNode} {change useCache : Bool} {addressIndex : UInt32} {s s' : Session σ}
  (hpolicy : policy.Numbered) (hcache : dev.CacheCoherent header policy s.cache)

include hpolicy hcache

theorem tapleafHash_eq {leaf : PolicyNode} (hleaf : ∀ key ∈ leaf.keys, key ∈ policy.keys) {hash : Digest}
    (h : computeTapleafHash dev (header.derivation change addressIndex useCache) leaf s = .ok hash s') :
    c.tapleafHash header leaf change addressIndex = some hash :=
  (refines_computeTapleafHash (fun _ => refines_getDerivedPubkey) hleaf).returned?
    ⟨c.servedBy header, hpolicy⟩ hcache h _

theorem walletScript_eq {script : Bytes}
    (h : getWalletScript dev policy (header.derivation change addressIndex useCache) s = .ok script s') :
    c.walletScript header policy change addressIndex = some script :=
  (refines_getWalletScript (fun _ => refines_getDerivedPubkey) fun _ h => h).returned?
    ⟨c.servedBy header, hpolicy⟩ hcache h _

end Commitments

section

variable {dev : Device σ} {header : PolicyMapWalletHeader} {policy : PolicyNode} {change useCache : Bool}
  {addressIndex : UInt32}

abbrev ReadsKeys (dev : Device σ) (header : PolicyMapWalletHeader) (policy : PolicyNode)
    (x : Query σ α) : Prop :=
  Reads (dev.CacheCoherent header policy)
    (KeyInfoUse dev header.version header.keysInfoMerkleRoot header.nKeys) (fun _ => True) x

theorem RefinesKeys.readsKeys {x : Query σ α} {y : Query Unit α}
    (h : RefinesKeys dev (Environment.committed fun _ _ _ => []) header (dev.CacheCoherent header policy)
      policy.Numbered (fun _ => True) x y) : ReadsKeys dev header policy x := h.within

theorem readsKeys_getExtendedPubkeyFromClient (keyIndex : Nat) : ReadsKeys dev header policy
      (getExtendedPubkeyFromClient dev (header.derivation change addressIndex useCache) keyIndex) :=
  RefinesKeys.readsKeys ((refines_getExtendedPubkeyFromClient keyIndex).mono fun _ _ => trivial)

theorem readsKeys_computeTapleafHash {leaf : PolicyNode} (hleaf : ∀ key ∈ leaf.keys, key ∈ policy.keys) :
    ReadsKeys dev header policy
      (computeTapleafHash dev (header.derivation change addressIndex useCache) leaf) :=
  RefinesKeys.readsKeys (refines_computeTapleafHash (fun _ => refines_getDerivedPubkey) hleaf)

theorem readsKeys_taptreeHashIfAny {tree : Option (PolicyTree PolicyNode)}
    (hkeys : ∀ t ∈ tree, ∀ script ∈ t.leaves, ∀ key ∈ script.keys, key ∈ policy.keys) :
    ReadsKeys dev header policy
      (taptreeHashIfAny dev (header.derivation change addressIndex useCache) tree) :=
  RefinesKeys.readsKeys (refines_taptreeHashIfAny (fun _ => refines_getDerivedPubkey) hkeys)

theorem readsKeys_getWalletScript : ReadsKeys dev header policy
      (getWalletScript dev policy (header.derivation change addressIndex useCache)) :=
  RefinesKeys.readsKeys (refines_getWalletScript (fun _ => refines_getDerivedPubkey) fun _ h => h)

theorem readsKeys_compareWalletScriptAtPath (expectedScript : Bytes) :
    ReadsKeys dev header policy (compareWalletScriptAtPath dev policy
      (header.derivation change addressIndex useCache) expectedScript) :=
  readsKeys_getWalletScript.bind fun _ _ => .pure trivial

end

theorem readHeaderTemplate_length {len : Nat} {m : Memory} {b : Buffer}
    {result : (Bytes ⊕ Digest) × Buffer} (h : readHeaderTemplate version len m b = some result) :
    len ≤ maxDescriptorTemplateLengthV2 := by
  by_contra hlong
  have hlong' : maxDescriptorTemplateLengthV1 < len := lt_trans (by decide) (not_le.mp hlong)
  simp [readHeaderTemplate, not_le.mp hlong, hlong'] at h

theorem readWalletPolicyHeader_length {header : PolicyMapWalletHeader}
    (h : readWalletPolicyHeader raw = some header) :
    header.descriptorTemplateLen ≤ maxDescriptorTemplateLengthV2 := by
  obtain ⟨version, -, h⟩ := Option.bind_eq_some_iff.mp h
  obtain ⟨_, -, h⟩ := Option.bind_eq_some_iff.mp (Option.ite_none_left_eq_some.mp h).2
  obtain ⟨_, -, h⟩ := Option.bind_eq_some_iff.mp (Option.ite_none_left_eq_some.mp h).2
  obtain ⟨templateLen, -, h⟩ := Option.bind_eq_some_iff.mp h
  obtain ⟨_, htemplate, h⟩ := Option.bind_eq_some_iff.mp h
  obtain ⟨_, -, h⟩ := Option.bind_eq_some_iff.mp h
  obtain ⟨_, -, h⟩ := Option.bind_eq_some_iff.mp (Option.ite_none_left_eq_some.mp h).2
  cases h
  exact readHeaderTemplate_length htemplate

structure PolicyParsed (dev : Device σ) (raw : Bytes) (s : Session σ) (wallet : WalletPolicy)
    (s' : Session σ) (descriptor : Memory) : Prop where
  header : readWalletPolicyHeader raw = some wallet.header
  fetched : fetchTemplate dev wallet.header s = .ok descriptor s'
  template : wallet.template = descriptor.read 0 wallet.header.descriptorTemplateLen
  parse : parseDescriptorTemplate (ParseEnv.device wallet.header.version) wallet.template = some wallet.policy

theorem readAndParseWalletPolicy_ok {dev : Device σ}
    {s s' : Session σ} (h : readAndParseWalletPolicy dev raw s = .ok wallet s') :
    ∃ descriptor, PolicyParsed dev raw s wallet s' descriptor := by
  obtain ⟨header, s1, hread, h⟩ := bind_ok h
  obtain ⟨hheader, rfl⟩ := ofOption_eq_ok_iff.mp hread
  obtain ⟨descriptor, s2, hfetched, h⟩ := bind_ok h
  split_ifs at h
  · obtain ⟨policy, s3, hparse, h⟩ := bind_ok h
    obtain ⟨hpolicy, rfl⟩ := ofOption_eq_ok_iff.mp hparse
    obtain ⟨rfl, rfl⟩ := pure_ok h
    exact ⟨descriptor, hheader, hfetched, rfl, hpolicy⟩
  · simp at h

theorem readAndParseWalletPolicy_numbered {dev : Device σ} {s s' : Session σ}
    (h : readAndParseWalletPolicy dev raw s = .ok wallet s') : wallet.policy.Numbered := by
  obtain ⟨descriptor, hparsed⟩ := readAndParseWalletPolicy_ok h
  have hlength := readWalletPolicyHeader_length hparsed.header
  apply parseDescriptorTemplate_numbered hparsed.parse
  rw [hparsed.template, Memory.length_read]
  exact lt_of_le_of_lt hlength (by decide)

theorem readAndParseWalletPolicy_asRead {dev : Device σ} {s s' : Session σ}
    (h : readAndParseWalletPolicy dev raw s = .ok wallet s') (hlast : wallet.policy.MusigLast) :
    dev.asRead wallet.policy = wallet.policy := by
  obtain ⟨descriptor, hparsed⟩ := readAndParseWalletPolicy_ok h
  exact parseDescriptorTemplate_asRead hparsed.parse hlast _

/-- A client that knows its data has committed to them. -/
def KnownData.commitments (sha256 : Bytes → Digest) (known : KnownData) :
    Commitments (Environment.known sha256 known) where
  element root size index := (known.element root size index).getD []
  leafElement := by
    rintro root size index outLen v ⟨e, e', h⟩
    change answerWith (known.element root size index) outLen id e = .ok v e' at h
    cases hdata : known.element root size index with
    | none => simp [answerWith, hdata] at h
    | some data =>
      simp only [answerWith, hdata] at h
      split at h
      · simp at h
      · obtain ⟨rfl, -⟩ := pure_ok h
        rfl

end LedgerBabylon
