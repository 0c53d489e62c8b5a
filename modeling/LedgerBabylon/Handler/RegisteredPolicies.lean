import LedgerBabylon.Handler.CommittedScript
import LedgerBabylon.Handler.RedeemScript
import LedgerBabylon.Handler.ScriptDomain

/-!
# Registered policies

What registration guarantees of a policy, and when the scripts of a registered policy can be compiled.
The parser, the checks of the registration and the compiler each have their own idea of what a policy
may contain.
-/

namespace LedgerBabylon

open Endian Exec PolicyNode

variable {policy : PolicyNode} {key : KeyExpr} {α : Type} {raw response : Bytes} {wallet : WalletPolicy}

theorem keyExpressions_eq (policy : PolicyNode) : keyExpressions policy = policy.keys := by
  unfold keyExpressions keys
  rw [getKeyexprByIndex_eq]
  show (List.range policy.keyexprs.length).filterMap
    (fun i => (policy.keyexprs[i]?).map Prod.fst) = policy.keyexprs.map Prod.fst
  induction policy.keyexprs with
  | nil => rfl
  | cons found rest ih =>
    rw [List.length_cons, List.range_succ_eq_map, List.filterMap_cons, List.filterMap_map, List.map_cons,
      ← ih]
    rfl

theorem le_foldl_max {f : Int → α → Int} (hf : ∀ r a, r ≤ f r a) {as : List α} {r : Int} :
    r ≤ as.foldl f r := by
  induction as generalizing r with
  | nil => exact Int.le_refl r
  | cons a as ih => exact Int.le_trans (hf r a) ih

theorem le_foldl_of_mem {f : Int → α → Int} (hf : ∀ r a, r ≤ f r a) {as : List α} {r n : Int}
    {a : α} (ha : a ∈ as) (hn : ∀ r, n ≤ f r a) : n ≤ as.foldl f r := by
  induction as generalizing r with
  | nil => cases ha
  | cons b as ih =>
    rcases List.mem_cons.mp ha with rfl | ha
    · exact Int.le_trans (hn r) (le_foldl_max hf)
    · exact ih ha

theorem lt_countDistinctKeysInfo (hkey : key ∈ policy.keys) {i : Nat} (hi : i ∈ key.type.keyIndexes) :
    (i : Int) < countDistinctKeysInfo policy := by
  have hmax (r : Int) (j : Nat) : r ≤ max r (j + 1) := Int.le_max_left r (j + 1)
  rw [← keyExpressions_eq] at hkey
  refine Int.lt_of_lt_of_le (Int.lt_succ i) (le_foldl_of_mem ?_ hkey ?_)
  · exact fun r key => le_foldl_max hmax
  · exact fun r => le_foldl_of_mem hmax hi fun r => Int.le_max_right r (i + 1)

variable {σ : Type} {dev : Device σ}

variable {s s' : Session σ}

theorem readPolicyToRegister_ok (h : readPolicyToRegister dev raw s = .ok wallet s') :
    ∃ raw' s0, readAndParseWalletPolicy dev raw' s0 = .ok wallet s' := by
  unfold readPolicyToRegister at h
  cases hread : Buffer.readVarint (Memory.ofList raw) (Buffer.create 0 raw.length) with
  | none => simp [hread] at h
  | some result =>
    rw [hread] at h
    obtain ⟨answer, s1, hquery, h⟩ := bind_ok h
    obtain ⟨rfl, rfl⟩ := okOr_ok_iff.mp h
    obtain ⟨_, heq, hwallet⟩ | ⟨_, heq, -⟩ := query_ok_iff.mp hquery
    · cases heq
      exact ⟨_, _, hwallet⟩
    · cases heq

/-- What is registered was parsed, and as it is read, all its key expressions are of a known type and
their keys are counted. -/
structure Registered (dev : Device σ) (wallet : WalletPolicy) : Prop where
  parsed : ∃ raw s s', readAndParseWalletPolicy dev raw s = .ok wallet s'
  readable : ∀ key ∈ (dev.asRead wallet.policy).keys, key.type ≠ .unreadable
  count : countDistinctKeysInfo (dev.asRead wallet.policy) = wallet.header.nKeys

theorem handlerRegisterWallet_ok (h : handlerRegisterWallet dev raw s = .ok (wallet, response) s') :
    Registered dev wallet := by
  obtain ⟨wallet', s1, hread, h⟩ := bind_ok h
  obtain ⟨_, s2, hcheck, h⟩ := bind_ok h
  have hwallet : wallet' = wallet := by
    obtain ⟨_, _, -, h⟩ := bind_ok h
    obtain ⟨_, _, -, h⟩ := bind_ok h
    obtain ⟨_, _, -, h⟩ := bind_ok h
    obtain ⟨_, _, -, h⟩ := bind_ok h
    exact (Prod.mk.inj (pure_ok h).1).1
  subst hwallet
  obtain ⟨_, s3, -, hcheck⟩ := bind_ok hcheck
  obtain ⟨_, s4, hkeys, -⟩ := bind_ok hcheck
  obtain ⟨raw', s0, hparsed⟩ := readPolicyToRegister_ok hread
  unfold checkKeysInfo at hkeys
  split_ifs at hkeys with hreadable
  · simp at hkeys
  · rw [keyExpressions_eq] at hreadable
    exact ⟨⟨raw', s0, _, hparsed⟩, by simpa using hreadable, by simpa using (checkOr_ok_iff.mp hkeys).1⟩

theorem Registered.accepted (h : Registered dev wallet) : Accepted false wallet.policy := by
  obtain ⟨raw, s, s', hread⟩ := h.parsed
  obtain ⟨descriptor, hparsed⟩ := readAndParseWalletPolicy_ok hread
  exact parseDescriptorTemplate_accepted hparsed.parse

theorem Registered.keyIndex_lt (h : Registered dev wallet) (hkey : key ∈ (dev.asRead wallet.policy).keys)
    {i : Nat} (hi : i ∈ key.type.keyIndexes) : i < wallet.header.nKeys := by
  have hlt := lt_countDistinctKeysInfo hkey hi
  have hcount := h.count
  omega

theorem Registered.nodeOk (h : Registered dev wallet) : ∀ c ∈ (dev.asRead wallet.policy).subnodes false,
      NodeOk (fun key => key.type ≠ .unreadable ∧ ∀ i ∈ key.type.keyIndexes, i < wallet.header.nKeys)
        c.2 := by
  intro c hc
  refine ⟨fun key hkey => ?_, fun {flags token k keys} heq => ?_⟩
  · have hmem := mem_keys hc hkey
    exact ⟨h.readable key hmem, fun i hi => h.keyIndex_lt hmem hi⟩
  · -- the node is read from a multisig with as many keys
    rw [Device.asRead, subnodes_asRead] at hc
    obtain ⟨⟨isTaproot, node⟩, hnode, rfl⟩ := List.mem_map.mp hc
    have haccepted := h.accepted.subnode hnode
    cases haccepted with
    | multisig _ _ hk hlength =>
      cases heq
      simpa using ⟨hk, hlength⟩
    | _ => cases heq

abbrev Session.CacheUsable (s : Session σ) : Prop := s.CacheOk True

def KeyExpr.Derivable (keyInfos : Nat → PolicyMapKeyInfo) (key : KeyExpr) : Prop :=
  ∀ change, key.DerivableAt keyInfos change

namespace MasterKey

/-- The device with operations on points that succeed; they are not used for a key without steps. -/
def pointDevice (templateHash : Digest) (template : Bytes) : Device (List Bool) :=
  { device templateHash template with
    crypto := { crypto with
      addPoint := fun _ _ => some pubkey
      addPointXonly := fun _ _ => some (0, pubkey.drop 1) }
    musigKeyAgg := fun _ => pubkey }

theorem isPoint_pubkey : IsPoint pubkey := ⟨by decide +kernel, by decide +kernel, by decide +kernel⟩

theorem pointDevice_pointsSucceed (templateHash : Digest) (template : Bytes) :
    (pointDevice templateHash template).PointsSucceed where
  addPoint _ _ := ⟨pubkey, rfl, isPoint_pubkey⟩
  addPointXonly _ _ := rfl
  musigKeyAgg _ := isPoint_pubkey

def parsedKeyInfo : PolicyMapKeyInfo :=
  ⟨[], beBytes 4 0x3442193e, true, false, ⟨0x043587CF, 0, 0, 0, chainCode, pubkey⟩⟩

theorem parse_keyInfo : parsePolicyMapKeyInfo sha256 2 keyInfo = some (true, parsedKeyInfo) := by
  decide +kernel

theorem keyInfo_fits : keyInfo.length ≤ maxPolicyKeyInfoLen := by decide +kernel

theorem leafElement_keyInfo (templateHash : Digest) (template : Bytes) (e : List Bool) :
    (pointDevice templateHash template).env.leafElement keysRoot (UInt32.ofNat 1) (UInt32.ofNat 0)
      maxPolicyKeyInfoLen e = .ok keyInfo e :=
  Environment.leafElement_known _ (by simp [KnownData.element]) keyInfo_fits e

def HasKey (wallet : WalletPolicy) : Bool :=
  wallet.header.version = 2 ∧ wallet.header.nKeys = 1 ∧ wallet.header.keysInfoMerkleRoot = keysRoot

theorem fetchesKeys (h : HasKey wallet) (templateHash : Digest) (template : Bytes) :
    FetchesKeys (pointDevice templateHash template) wallet.header fun _ => parsedKeyInfo := by
  obtain ⟨hversion, hkeys, hroot⟩ := of_decide_eq_true h
  refine ⟨fun {index} hindex => ⟨keyInfo, ?_, fun e => ⟨e, ?_⟩⟩, fun _ => isPoint_pubkey⟩
  · rw [hversion]
    exact parse_keyInfo
  · obtain rfl : index = 0 := by omega
    rw [hkeys, hroot]
    exact leafElement_keyInfo templateHash template e

def shPkh : Bytes := text "sh(pkh(@0/**))"

def shPkhHash : Digest := .ofNat 0xc0906345baabd13a3cd1bfb546a83418402c620f90109b8c6da861aaf27690c7

def wshSortedmulti : Bytes := text "wsh(sortedmulti(2,@0/**,@0/<2;3>/*))"

def wshSortedmultiHash : Digest := .ofNat 0x58d1aa312a3af0313fedfa6ec6059ca52fc5133911535c603e536d14bbfec3c5

theorem templates_registered :
    (returned? (handlerRegisterWallet (pointDevice shPkhHash shPkh) (request shPkhHash shPkh)) session).any
      (fun (wallet, _) => HasKey wallet && match wallet.policy with
        | .sh (.withKey _ .pkh _) => true
        | _ => false) ∧
    (returned? (handlerRegisterWallet (pointDevice wshSortedmultiHash wshSortedmulti)
      (request wshSortedmultiHash wshSortedmulti)) session).any
      (fun (wallet, _) => HasKey wallet && match wallet.policy with
        | .wsh (.multisig _ .sortedmulti _ _) => true
        | _ => false) :=
  ⟨by decide +kernel, by decide +kernel⟩

end MasterKey

end LedgerBabylon
