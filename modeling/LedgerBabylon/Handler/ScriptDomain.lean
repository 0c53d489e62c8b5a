import LedgerBabylon.Handler.RegisterWallet
import LedgerBabylon.Lib.Decides
import Mathlib.Data.List.Perm.Subperm

/-!
# When scripts can be compiled

The compiler fails at fragments that are not on its white lists and when its stack is full, and key
derivation fails at hardened steps and at keys that are too deep. If the key infos of a policy can be
fetched and the SDK's operations on points succeed, these are the only failures.
-/

namespace LedgerBabylon

open PolicyNode List Endian Exec

variable {pubkey : Bytes} {index room : Nat} {used : List Nat} {policy : PolicyNode} {ι : Type}
  {type : InternalScriptType} {keys : List KeyExpr} {node : PolicyNode}

def secp256k1P : Nat := 0xfffffffffffffffffffffffffffffffffffffffffffffffffffffffefffffc2f

structure IsPoint (pubkey : Bytes) : Prop where
  length : pubkey.length = 33
  parity : pubkey.headD 0 = 0x02 ∨ pubkey.headD 0 = 0x03
  coordinate : beNat (pubkey.drop 1) < secp256k1P

theorem byteArrayLt_replicate {n : Nat} {bytes : Bytes} (hlength : bytes.length = n)
    (hne : bytes ≠ replicate n 0xFF) : byteArrayLt bytes (replicate n 0xFF) := by
  induction n generalizing bytes with
  | zero => exact absurd (eq_nil_of_length_eq_zero hlength) hne
  | succ n ih =>
    cases bytes with
    | nil => cases hlength
    | cons b bytes =>
      rw [replicate_succ, byteArrayLt]
      by_cases hb : b = 0xFF
      · have hrest : bytes ≠ replicate n 0xFF := by
          rintro rfl
          exact hne (by rw [hb, replicate_succ])
        simp [hb, ih (by simpa using hlength) hrest]
      · have hlt : b.toNat < 255 := by
          have := b.toNat_lt
          have : b.toNat ≠ 255 := fun h => hb (UInt8.toNat_inj.mp h)
          omega
        simp [UInt8.lt_iff_toNat_lt, hlt]

theorem IsPoint.byteArrayLt (h : IsPoint pubkey) : byteArrayLt pubkey (replicate 33 0xFF) := by
  refine byteArrayLt_replicate h.length ?_
  rintro rfl
  exact absurd h.parity (by decide)

theorem IsPoint.xOnlyLess (h : IsPoint pubkey) : xOnlyLess pubkey (replicate 33 0xFF) := by
  refine byteArrayLt_replicate (by simp [h.length]) fun heq => ?_
  have hcoordinate := h.coordinate
  rw [heq] at hcoordinate
  exact absurd hcoordinate (by decide)

variable {σ : Type}

structure Device.PointsSucceed (dev : Device σ) : Prop where
  addPoint (k key : Bytes) : ∃ sum, dev.crypto.addPoint k key = some sum ∧ IsPoint sum
  addPointXonly (k x : Bytes) : (dev.crypto.addPointXonly k x).isSome
  musigKeyAgg (keys : List Bytes) : IsPoint (dev.musigKeyAgg keys)

/-- The client answers every request for a key info with the right one, and it has a key. -/
structure FetchesKeys (dev : Device σ) (header : PolicyMapWalletHeader)
    (keyInfos : Nat → PolicyMapKeyInfo) : Prop where
  fetched {index : Nat} (h : index < header.nKeys) : ∃ info,
    parsePolicyMapKeyInfo dev.crypto.sha256 header.version info = some (true, keyInfos index) ∧
    ∀ e, ∃ e', dev.env.leafElement header.keysInfoMerkleRoot (UInt32.ofNat header.nKeys)
      (UInt32.ofNat index) maxPolicyKeyInfoLen e = .ok info e'
  point {index : Nat} (h : index < header.nKeys) : IsPoint (keyInfos index).extPubkey.compressedPubkey

/-- The cache holds keys, and if `C` holds, an address key can be derived from them. -/
def Session.CacheOk (C : Prop) (s : Session σ) : Prop :=
  ∀ index isChange child, s.cache.derivedChild index isChange = some child →
    IsPoint child.compressedPubkey ∧ (C → child.depth ≠ 255)

theorem depth_lt_iff (depth : UInt8) : depth < 254 ↔ depth ≠ 255 ∧ depth + 1 ≠ 255 := by
  have hlt := depth.toNat_lt
  rw [UInt8.lt_iff_toNat_lt, ne_eq, ne_eq, ← UInt8.toNat_inj, ← UInt8.toNat_inj, UInt8.toNat_add]
  simp only [UInt8.reduceToNat]
  omega

/-- A key without origin steps is used as it is. The others are derived with the step of the change flag
and with the address index. -/
def KeyExpr.DerivableAt (keyInfos : Nat → PolicyMapKeyInfo) (change : Bool) (key : KeyExpr) : Prop :=
  ∀ keyIndex, key.type = .normal keyIndex → 0 < (scriptKey (keyInfos keyIndex)).1 →
    (keyInfos keyIndex).extPubkey.depth < 254 ∧ key.changeStep change < bip32FirstHardenedChild

section

-- `C` is the condition on a policy that makes all parts of the compiler return
variable {dev : Device σ} {header : PolicyMapWalletHeader} {keyInfos : Nat → PolicyMapKeyInfo}
  {change useCache : Bool} {addressIndex : UInt32} {C : Prop}

abbrev Returns {α : Type} (C : Prop) (P : α → Prop) (x : Query σ α) : Prop :=
  Decides (Session.CacheOk C) C True P x

section

variable (hkeys : FetchesKeys dev header keyInfos)

include hkeys

theorem returns_fetchKeyInfo (hindex : index < header.nKeys) : Returns C (· = (true, keyInfos index))
      (fetchKeyInfo dev header.version header.keysInfoMerkleRoot header.nKeys index) := by
  obtain ⟨info, hparse, hfetch⟩ := hkeys.fetched hindex
  have hask : Returns C (· = Except.ok info) (ask (attempt (dev.env.leafElement header.keysInfoMerkleRoot
      (UInt32.ofNat header.nKeys) (UInt32.ofNat index) maxPolicyKeyInfoLen))) := by
    intro s hs
    obtain ⟨e, he⟩ := hfetch s.env
    have hrun : ask (attempt (dev.env.leafElement header.keysInfoMerkleRoot (UInt32.ofNat header.nKeys)
        (UInt32.ofNat index) maxPolicyKeyInfoLen)) s = .ok (.ok info) { s with env := e } :=
      ask_ok_iff.mpr ⟨e, by simp only [attempt, he], rfl⟩
    refine ⟨fun _ => ⟨_, _, hrun⟩, fun a s' h => ?_⟩
    rw [hrun] at h
    cases h
    exact ⟨trivial, hs, rfl⟩
  refine hask.after fun answer hanswer => ?_
  obtain rfl := hanswer
  refine .after (Decides.modify trivial fun s hs => hs) fun _ _ => ?_
  rw [hparse]
  exact .pure trivial rfl

theorem returns_getExtendedPubkeyFromClient (hindex : index < header.nKeys) :
    Returns C (· = scriptKey (keyInfos index))
      (getExtendedPubkeyFromClient dev (header.derivation change addressIndex useCache) index) := by
  refine (returns_fetchKeyInfo hkeys hindex).after fun result hresult => ?_
  obtain rfl := hresult
  exact .pure trivial rfl

theorem returns_musigClientKeys {indexes : List Nat} (hindexes : ∀ i ∈ indexes, i < header.nKeys) :
    Returns C (fun _ => True)
      (musigClientKeys dev (header.derivation change addressIndex useCache) indexes) := by
  induction indexes with
  | nil => exact .pure trivial trivial
  | cons index indexes ih =>
    obtain ⟨hindex, hrest⟩ := forall_mem_cons.mp hindexes
    refine (returns_getExtendedPubkeyFromClient hkeys hindex).after fun key _ => ?_
    exact (ih hrest).then_pure fun _ _ => trivial

end

section

variable (hdev : dev.PointsSucceed)

include hdev

theorem decides_bip32CKDpub {parent : ExtPubkey} {index : UInt32}
    (hC : C → index < bip32FirstHardenedChild ∧ parent.depth ≠ 255) :
    Decides (Session.CacheOk C) C (index < bip32FirstHardenedChild ∧ parent.depth ≠ 255)
      (fun child => child.1.depth = parent.depth + 1 ∧ IsPoint child.1.compressedPubkey)
      (ofOption (dev.crypto.bip32CKDpub parent index) : Query σ _) := by
  obtain ⟨sum, hsum, hpoint⟩ :=
    hdev.addPoint ((dev.crypto.childHash parent index).take 32) parent.compressedPubkey
  by_cases hindex : index < bip32FirstHardenedChild ∧ parent.depth ≠ 255
  · rw [(Crypto.bip32CKDpub_eq_some_iff _).mpr ⟨hindex.1, hindex.2, sum, hsum, rfl⟩]
    exact .pure hindex ⟨rfl, hpoint⟩
  · cases hchild : dev.crypto.bip32CKDpub parent index with
    | none => exact .throw fun h => hindex (hC h)
    | some child =>
      obtain ⟨hstep, hdepth, -⟩ := (Crypto.bip32CKDpub_eq_some_iff _).mp hchild
      exact absurd ⟨hstep, hdepth⟩ hindex

/-- The child of the first step: a point, not too deep if `C` holds, and of known depth if it does not
come from the cache. -/
def FirstStep (C : Prop) (base : ExtPubkey) (useCache : Bool) (child : ExtPubkey) : Prop :=
  IsPoint child.compressedPubkey ∧ (C → child.depth ≠ 255) ∧
  (useCache = false → child.depth = base.depth + 1)

theorem decides_deriveFirstStepForPubkey {base : ExtPubkey} {keyExpr : KeyExpr}
    (hC : C → base.depth < 254 ∧ keyExpr.changeStep change < bip32FirstHardenedChild) :
    Decides (Session.CacheOk C) C
      (useCache = false → keyExpr.changeStep change < bip32FirstHardenedChild ∧ base.depth ≠ 255)
      (FirstStep C base useCache) (deriveFirstStepForPubkey dev base keyExpr useCache change) := by
  have hdepth (h : C) := (depth_lt_iff base.depth).mp (hC h).1
  have hstep : C → keyExpr.changeStep change < bip32FirstHardenedChild ∧ base.depth ≠ 255 :=
    fun h => ⟨(hC h).2, (hdepth h).1⟩
  have hchild {child : ExtPubkey × Bytes}
      (h : child.1.depth = base.depth + 1 ∧ IsPoint child.1.compressedPubkey) :
      FirstStep C base useCache child.1 :=
    ⟨h.2, fun hc => h.1 ▸ (hdepth hc).2, fun _ => h.1⟩
  refine (Decides.get trivial fun s hs => hs).after fun s hs => ?_
  refine .ite (fun _ => ?_) fun hcache => ?_
  · exact ((decides_bip32CKDpub hdev hstep).then_pure fun child h => hchild h).imp fun h _ => h
  · have huse : useCache := by
      by_contra hfalse
      exact hcache (.inr (by simp [hfalse]))
    subst huse
    split
    · next child hcached =>
        obtain ⟨hpoint, hdepth⟩ := hs _ _ _ hcached
        exact .pure (by simp) ⟨hpoint, hdepth, by simp⟩
    · refine ((decides_bip32CKDpub hdev hstep).imp fun _ => trivial).after fun child h => ?_
      refine .after (Decides.modify trivial fun t ht index isChange key hkey => ?_) fun _ _ =>
        Decides.pure (by simp) (hchild h)
      simp only [SignPsbtCache.insert] at hkey
      split at hkey
      · cases hkey
        exact ⟨(hchild h).1, (hchild h).2.1⟩
      · exact ht index isChange key hkey

theorem returns_keyexprRoot (hkeys : FetchesKeys dev header keyInfos) {type : KeyExpressionType}
    (hreadable : type ≠ .unreadable) (htype : ∀ i ∈ type.keyIndexes, i < header.nKeys) :
    Returns C (fun root => IsPoint root.2.compressedPubkey ∧
        ((∃ i, type = .normal i ∧ root = scriptKey (keyInfos i)) ∨ (∀ i, type ≠ .normal i) ∧ root.1 = 0))
      (keyexprRoot dev (header.derivation change addressIndex useCache) type) := by
  cases type with
  | normal i =>
    have hi : i < header.nKeys := htype i (mem_singleton_self i)
    refine (returns_getExtendedPubkeyFromClient hkeys hi).mono ?_
    rintro root rfl
    exact ⟨hkeys.point hi, .inl ⟨i, rfl, rfl⟩⟩
  | musig indexes =>
    exact (returns_musigClientKeys hkeys htype).then_pure fun keys _ =>
      ⟨hdev.musigKeyAgg (sortKeys keys), .inr ⟨by simp, rfl⟩⟩
  | unreadable => exact absurd rfl hreadable

/-- The key of an expression is derived if that is possible; without a cache, only then. -/
theorem decides_getDerivedPubkey (hkeys : FetchesKeys dev header keyInfos)
    (haddress : addressIndex < bip32FirstHardenedChild) {key : KeyExpr}
    (hreadable : key.type ≠ .unreadable) (hindexes : ∀ i ∈ key.type.keyIndexes, i < header.nKeys)
    (hC : C → key.DerivableAt keyInfos change) :
    Decides (Session.CacheOk C) C (useCache = false → key.DerivableAt keyInfos change) IsPoint
      (getDerivedPubkey dev (header.derivation change addressIndex useCache) key) := by
  refine (returns_keyexprRoot hdev hkeys hreadable hindexes).after fun root hroot => ?_
  obtain ⟨deriveLen, base⟩ := root
  obtain ⟨hpoint, ⟨i, htype, hscript⟩ | ⟨htype, rfl⟩⟩ := hroot
  · obtain ⟨rfl, rfl⟩ := Prod.mk.inj hscript
    refine .ite (fun hlen => ?_) fun hlen => Decides.pure ?_ hpoint
    · have hbase (h : C) := hC h i htype hlen
      have hdepth (child : ExtPubkey) (hchild : FirstStep C (keyInfos i).extPubkey useCache child)
          (h : addressIndex < bip32FirstHardenedChild ∧ child.depth ≠ 255) (huse : useCache = false) :
          (keyInfos i).extPubkey.depth + 1 ≠ 255 := by
        rw [← hchild.2.2 huse]
        exact h.2
      refine (Decides.bind (decides_deriveFirstStepForPubkey hdev hbase) fun child hchild =>
        ((decides_bip32CKDpub hdev fun h => ⟨haddress, hchild.2.1 h⟩).then_pure fun key h => h.2).imp
          (hdepth child hchild)).imp fun h huse => ?_
      intro j hj _
      obtain rfl : i = j := KeyExpressionType.normal.inj (htype.symm.trans hj)
      exact ⟨(depth_lt_iff _).mpr ⟨(h.1 huse).2, h.2 huse⟩, (h.1 huse).1⟩
    · intro _ j hj hlen'
      obtain rfl : i = j := KeyExpressionType.normal.inj (htype.symm.trans hj)
      exact absurd hlen' hlen
  · exact .pure (fun _ i hi => absurd hi (htype i)) hpoint

end

end

/-- A node can be compiled with so much room on the stack, if all its keys are `D`. -/
def CanCompile (type : InternalScriptType) (D : KeyExpr → Prop) : Nat → PolicyNode → Prop
  | 0, _ => False
  | room + 1, node => fragmentAllowed type node ∧ (∀ key ∈ node.ownKeys, D key) ∧
      ∀ child ∈ node.children, CanCompile type D room child

def CanBeUsed (D : KeyExpr → Prop) : PolicyNode → Prop
  | .withKey _ .pkh key | .withKey _ .wpkh key => D key
  | .sh (.wsh core) => CanCompile .shWsh D maxPolicyDepth core
  | .sh core => CanCompile .sh D maxPolicyDepth core
  | .wsh core => CanCompile .wsh D maxPolicyDepth core
  | .tr key tree => D key ∧ ∀ t ∈ tree, ∀ script ∈ t.leaves, CanCompile .tapscript D maxPolicyDepth script
  | _ => False

section

variable {dev : Device σ} {wdi : WalletDerivationInfo} {isTaproot : Bool}
  {child : Bool → PolicyNode → Query σ Bytes}

-- the known keys, and what their derivation needs
variable {I : Session σ → Prop} {C : Prop} {K D D' : KeyExpr → Prop} {S' : PolicyNode → Prop}
  (hkey : ∀ key, K key → (C → D key) → Decides I C (D' key) IsPoint (getDerivedPubkey dev wdi key))

section

include hkey

theorem decides_processCommands {commands : List ProcessorCommand} (flagV : Bool)
    (hkeys : ∀ key ∈ commands.flatMap ProcessorCommand.keys, K key ∧ (C → D key))
    (hchild : ∀ flag, ∀ script ∈ commands.flatMap ProcessorCommand.scripts,
      Decides I C (S' script) (fun _ => True) (child flag script)) :
    Decides I C ((∀ key ∈ commands.flatMap ProcessorCommand.keys, D' key) ∧
        ∀ script ∈ commands.flatMap ProcessorCommand.scripts, S' script)
      (fun _ => True) (processCommands dev wdi isTaproot child flagV commands) := by
  induction commands with
  | nil => exact .pure (by simp) trivial
  | cons command commands ih =>
    rw [flatMap_cons, forall_mem_append] at hkeys
    simp only [flatMap_cons, forall_mem_append] at hchild ⊢
    have hfirst : Decides I C ((∀ key ∈ command.keys, D' key) ∧ ∀ script ∈ command.scripts, S' script)
        (fun _ => True) (processCommand dev wdi isTaproot child flagV command) := by
      cases command with
      | pushPk key | pushPkh key =>
        obtain ⟨hK, hD⟩ := hkeys.1 key (by simp [ProcessorCommand.keys])
        refine ((hkey key hK hD).then_pure fun _ _ => trivial).imp fun h => ?_
        simpa [ProcessorCommand.keys, ProcessorCommand.scripts] using h
      | processChild script | processChildV script | processChildVV script =>
        refine ((hchild _).1 script (by simp [ProcessorCommand.scripts])).imp fun h => ?_
        simpa [ProcessorCommand.keys, ProcessorCommand.scripts] using h
      | _ => exact .pure (by simp [ProcessorCommand.keys, ProcessorCommand.scripts]) trivial
    have hrest := ih hkeys.2 fun flag => (hchild flag).2
    refine (hfirst.bind fun emitted _ => hrest.then_pure fun _ _ => trivial).imp ?_
    rintro ⟨⟨hk, hs⟩, hks, hss⟩
    exact ⟨⟨hk, hks⟩, hs, hss⟩

end

theorem decides_threshChildren {scripts : List PolicyNode} (step : Nat)
    (hchild : ∀ flag, ∀ script ∈ scripts, Decides I C (S' script) (fun _ => True) (child flag script)) :
    Decides I C (∀ script ∈ scripts, S' script) (fun _ => True) (threshChildren child scripts step) := by
  induction scripts generalizing step with
  | nil => exact .pure (by simp) trivial
  | cons script scripts ih =>
    have hfirst := hchild false script mem_cons_self
    have hrest := ih (step + 1) fun flag x hx => hchild flag x (mem_cons_of_mem _ hx)
    refine (hfirst.bind fun emitted _ => hrest.then_pure fun _ _ => trivial).imp ?_
    exact fun h => forall_mem_cons.mpr h

section

include hkey

theorem decides_pubkeysInOrder (hkeys : ∀ key ∈ keys, K key ∧ (C → D key)) :
    Decides I C (∀ key ∈ keys, D' key) (fun _ => True) (pubkeysInOrder dev wdi keys) := by
  induction keys with
  | nil => exact .pure (by simp) trivial
  | cons key keys ih =>
    obtain ⟨⟨hK, hD⟩, hrest⟩ := forall_mem_cons.mp hkeys
    refine ((hkey key hK hD).bind fun pubkey _ => (ih hrest).then_pure fun _ _ => trivial).imp ?_
    exact fun h => forall_mem_cons.mpr h

section

variable {less : Bytes → Bytes → Bool}
  (hless : ∀ pubkey, IsPoint pubkey → less pubkey (replicate 33 0xFF))

include hless

theorem decides_smallestPubkey (j : Nat)
    {best : Option Nat × Bytes} (hbest : best.1 = none → best.2 = replicate 33 0xFF)
    (hkeys : ∀ key ∈ keys, K key ∧ (C → D key)) :
    Decides I C (used = [] → ∀ key ∈ keys, D' key)
      (fun result => best.1.isSome ∨ (∃ i < keys.length, j + i ∉ used) → result.1.isSome)
      (smallestPubkey dev wdi less used keys j best) := by
  induction keys generalizing j best with
  | nil => exact .pure (by simp) (by simp)
  | cons key keys ih =>
    obtain ⟨⟨hK, hD⟩, hrest⟩ := forall_mem_cons.mp hkeys
    refine .ite (fun hused => ?_) fun hunused => ?_
    · refine ((ih (j + 1) hbest hrest).imp fun _ hnil => ?_).mono ?_
      · rw [hnil] at hused
        cases hused
      · rintro result hresult (hsome | ⟨i, hi, hunused⟩)
        · exact hresult (.inl hsome)
        · cases i with
          | zero => exact absurd hused hunused
          | succ i =>
            refine hresult (.inr ⟨i, by simpa using hi, ?_⟩)
            rwa [Nat.add_assoc, Nat.add_comm 1 i]
    · have hnext (pubkey : Bytes) (hpubkey : IsPoint pubkey) :
          Decides I C (used = [] → ∀ key ∈ keys, D' key) (fun result => result.1.isSome)
            (smallestPubkey dev wdi less used keys (j + 1)
              (if less pubkey best.2 then (some j, pubkey) else best)) := by
        have hsome : (if less pubkey best.2 then (some j, pubkey) else best).1.isSome := by
          by_cases hnone : best.1 = none
          · rw [hbest hnone, if_pos (hless pubkey hpubkey)]
            rfl
          · split
            · rfl
            · exact Option.isSome_iff_ne_none.mpr hnone
        refine (ih (j + 1) (fun hnone => ?_) hrest).mono fun result hresult => hresult (.inl hsome)
        rw [hnone] at hsome
        cases hsome
      refine (((hkey key hK hD).bind hnext).imp fun h hnil => ?_).mono fun _ hsome _ => hsome
      exact forall_mem_cons.mpr ⟨h.1, h.2 hnil⟩

theorem decides_sortedPubkeys (n : Nat)
    (hused : used.length + n = keys.length) (hkeys : ∀ key ∈ keys, K key ∧ (C → D key)) :
    Decides I C (used = [] → ∀ key ∈ keys, D' key) (fun _ => True)
      (sortedPubkeys dev wdi less keys n used) := by
  induction n generalizing used with
  | zero =>
    refine .pure (fun hnil => ?_) trivial
    obtain rfl : keys = [] := eq_nil_of_length_eq_zero (by simpa [hnil] using hused.symm)
    simp
  | succ n ih =>
    have hunused : ∃ i < keys.length, 0 + i ∉ used := by
      by_contra hall
      have hsubset : range keys.length ⊆ used := fun i hi => by
        by_contra hi'
        exact hall ⟨i, mem_range.mp hi, by simpa using hi'⟩
      have hle := (subperm_of_subset nodup_range hsubset).length_le
      rw [length_range] at hle
      omega
    refine (decides_smallestPubkey hkey hless 0 (fun _ => rfl) hkeys).then_returns fun best hbest => ?_
    obtain ⟨_ | j, pubkey⟩ := best
    · cases hbest (.inr hunused)
    · have hnext : (j :: used).length + n = keys.length := by
        rw [length_cons]
        omega
      exact ((ih hnext).then_pure fun _ _ => trivial).imp fun _ => trivial

end

theorem decides_multisigPubkeys (token : MultisigToken) (hkeys : ∀ key ∈ keys, K key ∧ (C → D key)) :
    Decides I C (∀ key ∈ keys, D' key) (fun _ => True) (multisigPubkeys dev wdi token keys) := by
  cases token with
  | multi | multiA => exact decides_pubkeysInOrder hkey hkeys
  | sortedmulti =>
    refine (decides_sortedPubkeys hkey (fun _ h => h.byteArrayLt) _ ?_ hkeys).imp fun h => h rfl
    exact Nat.zero_add _
  | sortedmultiA =>
    refine (decides_sortedPubkeys hkey (fun _ h => h.xOnlyLess) _ ?_ hkeys).imp fun h => h rfl
    exact Nat.zero_add _

theorem decides_processMultisig {flagV : Bool} {token : MultisigToken} {k : Nat}
    (hkeys : ∀ key ∈ keys, K key ∧ (C → D key)) (hk : k ≤ keys.length)
    (hlength : keys.length ≤ maxPubkeysPerMultisig) :
    Decides I C (∀ key ∈ keys, D' key) (fun _ => True) (processMultisig dev wdi flagV token k keys) := by
  have hpubkeys (token : MultisigToken) := decides_multisigPubkeys hkey token hkeys
  have h16 : keys.length ≤ 16 := hlength
  cases token with
  | multi | sortedmulti =>
    refine .ite (fun hlarge => absurd hlarge (by omega)) fun _ => ?_
    exact (hpubkeys _).then_pure fun _ _ => trivial
  | multiA | sortedmultiA =>
    refine .ite (fun hlarge => absurd hlarge (by omega)) fun _ => ?_
    exact (hpubkeys _).then_pure fun _ _ => trivial

structure NodeOk (K : KeyExpr → Prop) (node : PolicyNode) : Prop where
  keys : ∀ key ∈ node.ownKeys, K key
  multisig {flags : Option Miniscript.Typ} {token : MultisigToken} {k : Nat} {keys : List KeyExpr}
    (h : node = .multisig flags token k keys) : k ≤ keys.length ∧ keys.length ≤ maxPubkeysPerMultisig

theorem decides_processNode (flagV : Bool)
    (hallowed : fragmentAllowed type node) (hnode : NodeOk K node)
    (hC : C → ∀ key ∈ node.ownKeys, D key)
    (hchild : ∀ flag, ∀ x ∈ node.children, Decides I C (S' x) (fun _ => True) (child flag x)) :
    Decides I C ((∀ key ∈ node.ownKeys, D' key) ∧ ∀ x ∈ node.children, S' x) (fun _ => True)
      (processNode dev wdi (type = .tapscript) child flagV node) := by
  have hown : ∀ key ∈ node.ownKeys, K key ∧ (C → D key) :=
    fun key hmem => ⟨hnode.keys key hmem, fun h => hC h key hmem⟩
  cases hcommands : node.commands? with
  | some commands =>
    obtain ⟨hkeys, hscripts⟩ := mem_commands hcommands
    rw [processNode_of_commands hcommands]
    simp only [← hkeys, ← hscripts] at hown hchild ⊢
    exact decides_processCommands hkey flagV hown hchild
  | none =>
    cases node with
    | multisig flags token k keys =>
      obtain ⟨hk, hlength⟩ := hnode.multisig rfl
      refine (decides_processMultisig hkey hown hk hlength).imp fun h => ⟨h, ?_⟩
      simp [children]
    | thresh flags k scripts =>
      refine ((decides_threshChildren 0 hchild).then_pure fun _ _ => trivial).imp fun h => ⟨?_, h⟩
      simp [ownKeys]
    | withKey flags token key =>
      obtain ⟨hK, hD⟩ := hown key (by simp [ownKeys])
      have hpubkey := hkey key hK hD
      have hlast (h : D' key) : (∀ key' ∈ (withKey flags token key).ownKeys, D' key') ∧
          ∀ x ∈ (withKey flags token key).children, S' x := by
        simpa [ownKeys, children] using h
      cases token with
      | pkh =>
        refine (Decides.then_pure (P := fun _ => True) ?_ fun _ _ => trivial).imp hlast
        exact hpubkey.then_pure fun _ _ => trivial
      | wpkh =>
        refine (hpubkey.then_returns fun pubkey _ => ?_).imp hlast
        have htype : type ≠ .tapscript := by
          rintro rfl
          simp [fragmentAllowed] at hallowed
        rw [if_neg (by simpa using htype)]
        exact .pure trivial trivial
      | _ => cases hcommands
    | sh | wsh | tr => cases hallowed
    | _ => cases hcommands

theorem decides_compileNode (flagV : Bool) {isTaproot : Bool}
    (hnodes : ∀ c ∈ node.subnodes isTaproot, NodeOk K c.2) (hC : C → CanCompile type D room node) :
    Decides I C (CanCompile type D' room node) (fun _ => True)
      (compileNode dev wdi type room flagV node) := by
  induction room generalizing node flagV with
  | zero => exact .throw hC
  | succ room ih =>
    refine .ite (fun hallowed => ?_) fun hallowed => Decides.throw fun h => hallowed (hC h).1
    have hself : NodeOk K node := hnodes _ (mem_subnodes_self isTaproot node)
    have hchild (flag : Bool) (x : PolicyNode) (hx : x ∈ node.children) :=
      ih flag (fun c hc => hnodes c (mem_subnodes_of_mem_children hx hc)) fun h => (hC h).2.2 x hx
    exact (decides_processNode hkey flagV hallowed hself (fun h => (hC h).2.1) hchild).imp
      fun h => ⟨hallowed, h⟩

theorem decides_computeTapleafHash {isTaproot : Bool} (hnodes : ∀ c ∈ node.subnodes isTaproot, NodeOk K c.2)
    (hC : C → CanCompile .tapscript D maxPolicyDepth node) :
    Decides I C (CanCompile .tapscript D' maxPolicyDepth node) (fun _ => True)
      (computeTapleafHash dev wdi node) := by
  have hscript := decides_compileNode hkey false hnodes hC
  exact (hscript.bind fun _ _ => hscript.then_pure fun _ _ => trivial).imp And.left

theorem decides_computeTaptreeHash {tree : PolicyTree PolicyNode}
    (hnodes : ∀ script ∈ tree.leaves, ∀ c ∈ script.subnodes true, NodeOk K c.2)
    (hC : C → ∀ script ∈ tree.leaves, CanCompile .tapscript D maxPolicyDepth script) :
    Decides I C (∀ script ∈ tree.leaves, CanCompile .tapscript D' maxPolicyDepth script)
      (fun _ => True) (computeTaptreeHash dev wdi tree) := by
  induction tree with
  | leaf script =>
    have hself : script ∈ (PolicyTree.leaf script).leaves := mem_singleton_self script
    refine (decides_computeTapleafHash hkey (hnodes script hself) fun h => hC h script hself).imp ?_
    exact fun h => forall_mem_singleton.mpr h
  | branch l r ihl ihr =>
    simp only [PolicyTree.leaves, forall_mem_append] at hnodes hC ⊢
    have hl := ihl hnodes.1 fun h => (hC h).1
    have hr := ihr hnodes.2 fun h => (hC h).2
    exact hl.bind fun _ _ => hr.then_pure fun _ _ => trivial

theorem decides_scriptOfHash (type : InternalScriptType) {core : PolicyNode} {isTaproot : Bool}
    (hnodes : ∀ c ∈ core.subnodes isTaproot, NodeOk K c.2)
    (hC : C → CanCompile type D maxPolicyDepth core) :
    Decides I C (CanCompile type D' maxPolicyDepth core) (fun _ => True) (scriptOfHash dev wdi type core) :=
  (decides_compileNode hkey false hnodes hC).then_pure fun _ _ => trivial

theorem decides_getWalletScript (hdev : dev.PointsSucceed)
    (hnodes : ∀ c ∈ policy.subnodes false, NodeOk K c.2) (hC : C → CanBeUsed D policy) :
    Decides I C (CanBeUsed D' policy) (fun _ => True) (getWalletScript dev policy wdi) := by
  have hchild {x : PolicyNode} {c : Bool × PolicyNode} (hc : c ∈ x.subnodes false) :
      c ∈ (sh x).subnodes false ∧ c ∈ (wsh x).subnodes false :=
    ⟨mem_cons_of_mem _ hc, mem_cons_of_mem _ hc⟩
  cases policy with
  | withKey flags token key =>
    have hK : K key := (hnodes _ (mem_subnodes_self _ _)).keys key mem_cons_self
    cases token with
    | pkh | wpkh => exact (hkey key hK hC).then_pure fun _ _ => trivial
    | _ => exact .throw hC
  | sh core =>
    cases core with
    | wsh core =>
      exact decides_scriptOfHash hkey .shWsh (fun c hc => hnodes c (hchild (hchild hc).2).1) hC
    | _ => exact decides_scriptOfHash hkey .sh (fun c hc => hnodes c (hchild hc).1) hC
  | wsh core => exact decides_scriptOfHash hkey .wsh (fun c hc => hnodes c (hchild hc).2) hC
  | tr key tree =>
    have hK : K key := (hnodes _ (mem_subnodes_self _ _)).keys key mem_cons_self
    refine (hkey key hK fun h => (hC h).1).bind fun pubkey _ => ?_
    have htree : Decides I C (∀ t ∈ tree, ∀ script ∈ t.leaves, CanCompile .tapscript D' maxPolicyDepth script)
        (fun _ => True) (taptreeHashIfAny dev wdi tree) := by
      cases tree with
      | none => exact .pure (by simp) trivial
      | some tree =>
        refine ((decides_computeTaptreeHash hkey ?_ fun h => (hC h).2 tree rfl).then_pure
          fun _ _ => trivial).imp fun h t ht => ?_
        · intro script hscript c hc
          exact hnodes c (mem_cons_of_mem _ (mem_subnodesTree.mpr ⟨script, hscript, hc⟩))
        · cases ht
          exact h
    refine htree.then_returns fun h _ => ?_
    obtain ⟨tweaked, htweaked⟩ := Option.isSome_iff_exists.mp (hdev.addPointXonly
      (dev.crypto.taggedHash Crypto.taptweakTag (pubkey.drop 1 ++ (h.map Digest.bytes).getD [])).bytes
      (pubkey.drop 1))
    unfold taprootScript
    rw [show dev.crypto.trTweakPubkey (pubkey.drop 1) ((h.map Digest.bytes).getD []) = some tweaked from
      htweaked]
    exact .pure trivial trivial
  | _ => exact .throw hC

end

end

theorem canCompile_forall_iff [Nonempty ι] {D : ι → KeyExpr → Prop} :
    CanCompile type (fun key => ∀ i, D i key) room node ↔ ∀ i, CanCompile type (D i) room node := by
  induction room generalizing node with
  | zero => simp [CanCompile]
  | succ room ih =>
    simp only [CanCompile, ih]
    refine ⟨fun ⟨hallowed, hkeys, hchildren⟩ i => ⟨hallowed, ?_, ?_⟩, fun h => ⟨?_, ?_, ?_⟩⟩
    · exact fun key hkey => hkeys key hkey i
    · exact fun child hchild => hchildren child hchild i
    · exact (h (Classical.arbitrary ι)).1
    · exact fun key hkey i => (h i).2.1 key hkey
    · exact fun child hchild i => (h i).2.2 child hchild

theorem canBeUsed_forall_iff [Nonempty ι] {D : ι → KeyExpr → Prop} :
    CanBeUsed (fun key => ∀ i, D i key) policy ↔ ∀ i, CanBeUsed (D i) policy := by
  cases policy with
  | withKey flags token key => cases token <;> simp [CanBeUsed]
  | sh core => cases core <;> simp [CanBeUsed, canCompile_forall_iff]
  | wsh core => simp [CanBeUsed, canCompile_forall_iff]
  | tr key tree =>
    simp only [CanBeUsed, canCompile_forall_iff]
    refine ⟨fun ⟨hkey, htree⟩ i => ⟨hkey i, ?_⟩, fun h => ⟨fun i => (h i).1, ?_⟩⟩
    · exact fun t ht script hscript => htree t ht script hscript i
    · exact fun t ht script hscript i => (h i).2 t ht script hscript
  | _ => simp [CanBeUsed]

end LedgerBabylon
