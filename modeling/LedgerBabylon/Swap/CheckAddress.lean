import LedgerBabylon.Common.ScriptTexts
import LedgerBabylon.Handler.SignPsbt.LeafHash
import Mathlib.Data.List.TakeDrop

/-!
# Checking an address in a swap

The exchange application asks whether an address belongs to a key of the device. The address is computed
from the public key without a policy. It is the address of the script that the policies with only this
key have.
-/

namespace LedgerBabylon

open List Endian Exec

variable {m : Memory} {check : Bytes} {d : Destination}

def P2_LEGACY : UInt8 := 0x00
def P2_SEGWIT : UInt8 := 0x01
def P2_NATIVE_SEGWIT : UInt8 := 0x02
def P2_TAPROOT : UInt8 := 0x04

/-- `get_address_from_compressed_public_key`: nothing if it returns `false`. A tweak that fails, which
is not checked, leaves its result uninitialised. -/
def getAddressFromCompressedPublicKey (crypto : Crypto) (format : UInt8) (compressedPubKey : Bytes)
    (payToAddressVersion payToScriptHashVersion : Nat) (nativeSegwitHrp : Option Bytes)
    (maxAddressLength : Nat) : Except Fault (Option Bytes) :=
  if format = P2_LEGACY then
    let tmp := crypto.hash160 compressedPubKey
    .ok (crypto.base58EncodeAddress tmp payToAddressVersion (maxAddressLength - 1))
  else
    let script := [0x00, 0x14] ++ crypto.hash160 compressedPubKey
    if format = P2_SEGWIT then
      let tmp := crypto.hash160 script
      .ok (crypto.base58EncodeAddress tmp payToScriptHashVersion (maxAddressLength - 1))
    else
      match nativeSegwitHrp with
      | none => .ok none
      | some hrp =>
        if format = P2_NATIVE_SEGWIT then .ok (segwitAddrEncode hrp 0 ((script.drop 2).take 20))
        else if format = P2_TAPROOT then
          match crypto.trTweakPubkey (compressedPubKey.drop 1) [] with
          | none => .error .undefinedBehaviour
          | some (_, tweakedKey) => .ok (segwitAddrEncode hrp 1 (tweakedKey.take 32))
        else .ok none

/-- `check_address_parameters_t`, as far as it is used. The text to check may be missing. -/
structure CheckAddressParameters where
  addressParameters : Memory
  addressParametersLength : UInt8
  addressToCheck : Option Memory

def maxSwapBip32Path : Nat := 10

def parseSerializedPath (m : Memory) (addr : Nat) (length : UInt8) : Option (List UInt32) :=
  let steps := (m addr).toNat
  if length < 1 ∨ maxSwapBip32Path < steps ∨ length.toNat < steps * 4 + 1 then none
  else some ((List.range steps).map fun i => UInt32.ofNat (beNat (m.read (addr + 1 + 4 * i) 4)))

/-- `os_strcmp` with a text of which the terminator is left out: whether it is equal. -/
def osStrcmp (s : Bytes) (m : Memory) : Bool := m.read 0 (s.length + 1) = s ++ [0]

def handleCheckAddress (crypto : Crypto) (coin : Coin) (params : CheckAddressParameters) : Except Fault Bool :=
  match params.addressToCheck with
  | none => .ok false
  | some addressToCheck =>
    match parseSerializedPath params.addressParameters 1 (params.addressParametersLength - 1) with
    | none => .ok false
    | some path =>
      match crypto.pubkeyAtPath path with
      | none => .ok false
      | some (compressedPublicKey, _) => do
        let address ← getAddressFromCompressedPublicKey crypto (params.addressParameters 0)
          compressedPublicKey coin.p2pkhVersion coin.p2shVersion (some coin.nativeSegwitHrp)
          (maxAddressLengthStr coin + 1)
        match address with
        | none => return false
        | some address => return osStrcmp address addressToCheck

theorem map_read_path {addr : Nat} {path : List UInt32}
    (h : m.read addr (4 * path.length) = path.flatMap fun step => beBytes 4 step.toNat) :
    ((range path.length).map fun i => UInt32.ofNat (beNat (m.read (addr + 4 * i) 4))) = path := by
  induction path generalizing addr with
  | nil => rfl
  | cons step path ih =>
    rw [length_cons, Nat.mul_succ, Nat.add_comm, Memory.read_add, flatMap_cons] at h
    obtain ⟨hstep, hrest⟩ := append_inj h (by simp)
    have hstepEq : UInt32.ofNat (beNat (m.read addr 4)) = step := by
      have hlt : step.toNat < 256 ^ 4 := step.toNat_lt
      rw [hstep, beNat, beBytes, reverse_reverse, leNat_leBytes, Nat.mod_eq_of_lt hlt, UInt32.ofNat_toNat]
    rw [length_cons, range_succ_eq_map, map_cons, Nat.mul_zero, Nat.add_zero, hstepEq, map_map]
    have htail := ih hrest
    conv_rhs => rw [← htail]
    congr 1
    apply map_congr_left
    intro i _
    simp only [Function.comp_apply, Nat.mul_succ]
    congr 3
    omega

structure CheckAddressParameters.Hold (params : CheckAddressParameters) (format : UInt8) (path : List UInt32)
    (check : Bytes) : Prop where
  parameters : params.addressParameters.read 0 (2 + 4 * path.length) =
    format :: UInt8.ofNat path.length :: path.flatMap fun step => beBytes 4 step.toNat
  length : 2 + 4 * path.length ≤ params.addressParametersLength.toNat
  path_le : path.length ≤ maxSwapBip32Path
  text : ∃ m, params.addressToCheck = some m ∧ m.read 0 (check.length + 1) = check ++ [0]
  nonzero : 0 ∉ check

theorem CheckAddressParameters.Hold.parse {params : CheckAddressParameters} {format : UInt8}
    {path : List UInt32} (h : params.Hold format path check) :
    params.addressParameters 0 = format ∧
      parseSerializedPath params.addressParameters 1 (params.addressParametersLength - 1) = some path := by
  have hread := h.parameters
  rw [Nat.add_comm, Memory.read_succ, Memory.read_succ] at hread
  obtain ⟨hformat, hread⟩ := cons.inj hread
  obtain ⟨hcount, hpath⟩ := cons.inj hread
  have hle := h.path_le
  have hlen := h.length
  unfold maxSwapBip32Path at hle
  have hsteps : (params.addressParameters 1).toNat = path.length := by
    rw [show params.addressParameters 1 = _ from hcount, UInt8.toNat_ofNat', Nat.mod_eq_of_lt (by omega)]
  have hless : (params.addressParametersLength - 1).toNat = params.addressParametersLength.toNat - 1 :=
    UInt8.toNat_sub_of_le _ _ (UInt8.le_iff_toNat_le.mpr (by simp; omega))
  refine ⟨hformat, ?_⟩
  unfold parseSerializedPath
  simp only [hsteps, maxSwapBip32Path]
  rw [if_neg, map_read_path hpath]
  rw [UInt8.lt_iff_toNat_lt, hless]
  simp
  omega

theorem osStrcmp_iff {s : Bytes} (hs : 0 ∉ s) (hcheck : 0 ∉ check)
    (h : m.read 0 (check.length + 1) = check ++ [0]) : osStrcmp s m ↔ check = s := by
  have hends : ∀ t : Bytes, m.read 0 (t.length + 1) = t ++ [0] →
      m t.length = 0 ∧ ∀ i (hi : i < t.length), m i = t[i] := by
    intro t ht
    have hget : ∀ i < t.length + 1, some (m i) = (t ++ [0])[i]? := by
      intro i hi
      rw [← ht, Memory.getElem?_read m hi, Nat.zero_add]
    constructor
    · simpa using hget t.length (Nat.lt_succ_self _)
    · intro i hi
      have := hget i (by omega)
      rwa [getElem?_append_left hi, getElem?_eq_getElem hi, Option.some.injEq] at this
  rw [osStrcmp, decide_eq_true_iff]
  constructor
  · intro heq
    obtain ⟨hsend, hsin⟩ := hends s heq
    obtain ⟨hcend, hcin⟩ := hends check h
    have hlen : check.length = s.length := by
      rcases Nat.lt_trichotomy check.length s.length with hlt | hlt | hlt
      · exact absurd (hcend ▸ hsin _ hlt ▸ getElem_mem hlt) hs
      · exact hlt
      · exact absurd (hsend ▸ hcin _ hlt ▸ getElem_mem hlt) hcheck
    apply ext_getElem hlen
    intro i hi hi'
    rw [← hcin i hi, hsin i hi']
  · rintro rfl
    exact h

def Destination.Standard : Destination → Prop
  | .p2pkh _ _ | .p2sh _ _ => True
  | .witness version program => (version = 0 ∧ program.length = 20) ∨ (version = 1 ∧ program.length = 32)

theorem Destination.getScriptType_script (h : d.Standard) : getScriptType d.script = some (match d with
      | .p2pkh _ _ => .p2pkh
      | .p2sh _ _ => .p2sh
      | .witness version _ => if version = 0 then .p2wpkh else .p2tr) := by
  cases d with
  | p2pkh hash hlen =>
    simp [getScriptType, Destination.script, hlen]
  | p2sh hash hlen =>
    simp [getScriptType, Destination.script, hlen]
  | witness version program =>
    rcases h with ⟨rfl, hlen⟩ | ⟨rfl, hlen⟩
    · simp [getScriptType, Destination.script, hlen]
    · simp [getScriptType, Destination.script, hlen, OP_0, OP_1]

theorem Destination.getScriptAddress_script (h : d.Standard) (crypto : Crypto) (coin : Coin)
    {outLen : Nat} (hout : 73 + coin.nativeSegwitHrp.length ≤ outLen) :
    getScriptAddress crypto coin d.script outLen = d.address crypto coin outLen := by
  have htype := getScriptType_script h
  cases d with
  | p2pkh hash hlen =>
    rw [getScriptAddress, htype]
    exact base58EncodeAddress_append crypto hlen _ _ _
  | p2sh hash hlen =>
    rw [getScriptAddress, htype]
    exact base58EncodeAddress_append crypto hlen _ _ _
  | witness version program =>
    rcases h with ⟨rfl, hlen⟩ | ⟨rfl, hlen⟩
    · rw [getScriptAddress, htype]
      simp [Destination.script, Destination.address, hlen, Nat.not_lt.mpr hout, take_of_length_le hlen.le]
    · rw [getScriptAddress, htype]
      simp [Destination.script, Destination.address, hlen, Nat.not_lt.mpr hout, take_of_length_le hlen.le]

/-- Every standard destination has an address, which is found if there is room for it. -/
theorem Destination.exists_address (h : d.Standard) (crypto : Crypto) (coin : Coin) :
    ∃ address, ∀ outLen, maxAddressLengthStr coin + 1 ≤ outLen → d.address crypto coin outLen = some address := by
  have hversions : coin.p2pkhVersion < 256 ∧ coin.p2shVersion < 256 := by cases coin <;> decide
  have hsize : maxAddressLengthStr coin = 75 := by cases coin <;> rfl
  have hhash : ∀ {hash : Bytes} {version : Nat}, hash.length = 20 → version < 256 →
      ∃ address, ∀ outLen, maxAddressLengthStr coin + 1 ≤ outLen →
        crypto.base58EncodeAddress hash version (outLen - 1) = some address := by
    intro hash version hlen hversion
    unfold Crypto.base58EncodeAddress
    simp only [if_pos hversion]
    have htotal : (beBytes 1 version ++ hash.take 20 ++
        crypto.getChecksum (beBytes 1 version ++ hash.take 20)).length = 25 := by
      simp [length_getChecksum, hlen]
    obtain ⟨address, haddress⟩ := exists_base58Encode (htotal.trans_le (by decide))
    rw [htotal] at haddress
    refine ⟨address, fun outLen hout => haddress _ ?_⟩
    have hneeded : base58OutputSize 25 = 35 := rfl
    omega
  cases d with
  | p2pkh hash hlen => exact hhash hlen hversions.1
  | p2sh hash hlen => exact hhash hlen hversions.2
  | witness version program =>
    have hhrp : coin.nativeSegwitHrp.length ≤ 18 ∧
        ∀ ch ∈ coin.nativeSegwitHrp, ¬(ch < 33 ∨ 126 < ch ∨ (0x41 ≤ ch ∧ ch ≤ 0x5A)) := by
      cases coin <;> decide +kernel
    obtain ⟨address, haddress⟩ : ∃ address, segwitAddrEncode coin.nativeSegwitHrp version program = some address := by
      rcases h with ⟨rfl, hlen⟩ | ⟨rfl, hlen⟩
      · exact exists_segwitAddrEncode hhrp.1 hhrp.2 (by decide) (fun _ => .inl hlen) (by omega) (by omega)
      · exact exists_segwitAddrEncode hhrp.1 hhrp.2 (by decide) (fun h => absurd h (by decide)) (by omega)
          (by omega)
    exact ⟨address, fun _ _ => haddress⟩

structure Crypto.Sized (crypto : Crypto) : Prop where
  ripemd160 (message : Bytes) : (crypto.ripemd160 message).length = 20
  addPointXonly {k x : Bytes} {out : UInt8 × Bytes} (h : crypto.addPointXonly k x = some out) :
    out.2.length = 32

inductive AddressFormat where
  | legacy
  | segwit
  | nativeSegwit
  | taproot
  deriving DecidableEq

namespace AddressFormat

def byte : AddressFormat → UInt8
  | .legacy => P2_LEGACY
  | .segwit => P2_SEGWIT
  | .nativeSegwit => P2_NATIVE_SEGWIT
  | .taproot => P2_TAPROOT

def policy (flags : Option Miniscript.Typ) (key : KeyExpr) : AddressFormat → PolicyNode
  | .legacy => .withKey flags .pkh key
  | .segwit => .sh (.withKey flags .wpkh key)
  | .nativeSegwit => .withKey flags .wpkh key
  | .taproot => .tr key none

end AddressFormat

section

variable {σ : Type} {dev : Device σ} {wdi : WalletDerivationInfo} {key : KeyExpr} {pubkey : Bytes}
  {s s' : Session σ}

def swapAddress (crypto : Crypto) (coin : Coin) (format : AddressFormat) (pubkey : Bytes) :
    Except Fault (Option Bytes) :=
  getAddressFromCompressedPublicKey crypto format.byte pubkey coin.p2pkhVersion coin.p2shVersion
    (some coin.nativeSegwitHrp) (maxAddressLengthStr coin + 1)

theorem swapAddress_taproot (crypto : Crypto) (coin : Coin) (pubkey : Bytes) :
    swapAddress crypto coin .taproot pubkey =
      match crypto.trTweakPubkey (pubkey.drop 1) [] with
      | none => .error .undefinedBehaviour
      | some (_, tweakedKey) => .ok (segwitAddrEncode coin.nativeSegwitHrp 1 (tweakedKey.take 32)) := rfl

theorem getWalletScript_taproot (flags : Option Miniscript.Typ)
    (hkey : getDerivedPubkey dev wdi key s = .ok pubkey s') :
    getWalletScript dev (AddressFormat.taproot.policy flags key) wdi s =
      match dev.crypto.trTweakPubkey (pubkey.drop 1) [] with
      | none => .error .undefinedBehaviour s'
      | some (_, tweakedKey) => .ok ([0x51, 32] ++ tweakedKey) s' := by
  show (getDerivedPubkey dev wdi key >>= fun pubkey =>
    taptreeHashIfAny dev wdi none >>= taprootScript dev (pubkey.drop 1)) s = _
  rw [bind_of_ok hkey]
  show taprootScript dev (pubkey.drop 1) none s' = _
  unfold taprootScript
  cases htweak : dev.crypto.trTweakPubkey (pubkey.drop 1) [] with
  | none =>
    simp only [Option.map_none, Option.getD_none, htweak]
    rfl
  | some tweaked =>
    simp only [Option.map_none, Option.getD_none, htweak]
    rfl

/-- Both sides pay to one destination, unless the taproot tweak fails. -/
theorem exists_destination (hdev : dev.crypto.Sized) (coin : Coin) (format : AddressFormat)
    (flags : Option Miniscript.Typ) (hkey : getDerivedPubkey dev wdi key s = .ok pubkey s')
    (htweak : format = .taproot → dev.crypto.trTweakPubkey (pubkey.drop 1) [] ≠ none) :
    ∃ d : Destination, d.Standard ∧ swapAddress dev.crypto coin format pubkey =
        .ok (d.address dev.crypto coin (maxAddressLengthStr coin + 1)) ∧
      getWalletScript dev (format.policy flags key) wdi s = .ok d.script s' := by
  cases format with
  | legacy =>
    refine ⟨.p2pkh (dev.crypto.hash160 pubkey) (hdev.ripemd160 _), trivial, rfl, ?_⟩
    rw [AddressFormat.policy, getWalletScript, bind_of_ok hkey]
    rfl
  | segwit =>
    refine ⟨.p2sh (dev.crypto.hash160 ([0x00, 0x14] ++ dev.crypto.hash160 pubkey)) (hdev.ripemd160 _), trivial,
      rfl, ?_⟩
    have hinner : internalScript dev wdi .sh (.withKey flags .wpkh key) s =
        .ok ([0x00, 0x14] ++ dev.crypto.hash160 pubkey) s' := by
      show processWpkh dev wdi false key s = _
      rw [processWpkh, bind_of_ok hkey]
      rfl
    show scriptOfHash dev wdi .sh (.withKey flags .wpkh key) s = _
    rw [scriptOfHash, bind_of_ok hinner]
    rfl
  | nativeSegwit =>
    have hlen : (dev.crypto.hash160 pubkey).length = 20 := hdev.ripemd160 _
    refine ⟨.witness 0 (dev.crypto.hash160 pubkey), .inl ⟨rfl, hlen⟩, ?_, ?_⟩
    · show Except.ok (segwitAddrEncode _ 0 ((dev.crypto.hash160 pubkey).take 20)) = _
      rw [take_of_length_le hlen.le]
      rfl
    · rw [AddressFormat.policy, getWalletScript, bind_of_ok hkey, Destination.script, hlen]
      rfl
  | taproot =>
    obtain ⟨⟨parity, tweakedKey⟩, htweaked⟩ := Option.ne_none_iff_exists'.mp (htweak rfl)
    have hlen : tweakedKey.length = 32 := hdev.addPointXonly htweaked
    refine ⟨.witness 1 tweakedKey, .inr ⟨rfl, hlen⟩, ?_, ?_⟩
    · rw [swapAddress_taproot, htweaked]
      simp only [take_of_length_le hlen.le]
      rfl
    · rw [getWalletScript_taproot flags hkey, htweaked, Destination.script, hlen]
      rfl

/-- **Swap addresses are wallet addresses.** The address of a key in a swap is that of the policy with
this key only, and the check accepts no other text for a path to it. If the taproot tweak fails, both
sides use what was never written. -/
theorem swapAddress_eq_walletAddress (hdev : dev.crypto.Sized) (coin : Coin) (format : AddressFormat)
    (flags : Option Miniscript.Typ) (hkey : getDerivedPubkey dev wdi key s = .ok pubkey s') :
    (format = .taproot ∧ dev.crypto.trTweakPubkey (pubkey.drop 1) [] = none ∧
      swapAddress dev.crypto coin format pubkey = .error .undefinedBehaviour ∧
      getWalletScript dev (format.policy flags key) wdi s = .error .undefinedBehaviour s') ∨
    ∃ address script, swapAddress dev.crypto coin format pubkey = .ok (some address) ∧
      getWalletScript dev (format.policy flags key) wdi s = .ok script s' ∧
      (∀ outLen, maxAddressLengthStr coin + 1 ≤ outLen →
        getScriptAddress dev.crypto coin script outLen = some address) ∧
      ∀ path chainCode params check, dev.crypto.pubkeyAtPath path = some (pubkey, chainCode) →
        params.Hold format.byte path check →
        (handleCheckAddress dev.crypto coin params = .ok true ↔ check = address) := by
  by_cases htweak : format = .taproot ∧ dev.crypto.trTweakPubkey (pubkey.drop 1) [] = none
  · obtain ⟨rfl, hnone⟩ := htweak
    refine .inl ⟨rfl, hnone, ?_, ?_⟩
    · rw [swapAddress_taproot, hnone]
    · rw [getWalletScript_taproot flags hkey, hnone]
  · obtain ⟨d, hstandard, hswap, hscript⟩ := exists_destination hdev coin format flags hkey
      fun hformat hnone => htweak ⟨hformat, hnone⟩
    obtain ⟨address, haddress⟩ := d.exists_address hstandard dev.crypto coin
    have hsize : 73 + coin.nativeSegwitHrp.length ≤ maxAddressLengthStr coin + 1 := by
      cases coin <;> decide
    rw [haddress _ (Nat.le_refl _)] at hswap
    refine .inr ⟨address, d.script, hswap, hscript, fun outLen hout => ?_, ?_⟩
    · rw [Destination.getScriptAddress_script hstandard _ _ (hsize.trans hout), haddress _ hout]
    · intro path chainCode params check hpath hparams
      obtain ⟨m, hm, htext⟩ := hparams.text
      obtain ⟨hformat, hparse⟩ := hparams.parse
      have hnonzero : 0 ∉ address := by
        intro hzero
        have hgt := (Destination.address_fits (by cases coin <;> decide)
          (haddress 185 (by cases coin <;> decide))).2 0 hzero
        exact absurd hgt (by decide)
      have hcheck : handleCheckAddress dev.crypto coin params = .ok (osStrcmp address m) := by
        rw [handleCheckAddress, hm, hparse]
        simp only [hpath, hformat]
        rw [show getAddressFromCompressedPublicKey dev.crypto format.byte pubkey coin.p2pkhVersion
          coin.p2shVersion (some coin.nativeSegwitHrp) (maxAddressLengthStr coin + 1) = _ from hswap]
        rfl
      rw [hcheck, Except.ok.injEq]
      exact osStrcmp_iff hnonzero hparams.nonzero htext

end

namespace Leaf

open Vault

/-- The first receiving address of the account. -/
def swapText : Bytes := text "tb1q7f0pjwhc3jzzv0w4uurm589506glv2dg2qy7ze"

def swapPath : List UInt32 := account ++ [0, 0]

def swapCrypto : Crypto :=
  { Leaf.crypto with
    sha256 := sha256Table ((addressPubkey,
      .ofNat 0xca669cd6ff985999026abb46443455ec412b887d47abe1d1e29de52e0b913eae) :: hashTable)
    ripemd160 := fun message =>
      (if message = beBytes 32 0xca669cd6ff985999026abb46443455ec412b887d47abe1d1e29de52e0b913eae then
        beBytes 20 0xf25e193af88c84263dd5e707ba1cb47e91f629a8
      else Leaf.crypto.ripemd160 message).takeD 20 0
    pubkeyAtPath := fun path =>
      if path = swapPath then
        some (addressPubkey, beBytes 32 0x5c86abe6ba638c70da43088467b2ff746954beb8ea5a5d2686fb7620155a4aed)
      else pubkeyAtPath path }

def swapDevice : Device (List Bool) := Vault.device swapCrypto []

theorem swapDevice_sized : swapDevice.crypto.Sized where
  ripemd160 _ := takeD_length ..
  addPointXonly h := by cases h

def swapKeys : WalletDerivationInfo :=
  ⟨2, Vault.keysRoot, 1, false, 0, false⟩

def swapParams : CheckAddressParameters where
  addressParameters i := (P2_NATIVE_SEGWIT :: 5 :: swapPath.flatMap fun step => beBytes 4 step.toNat).getD i 0
  addressParametersLength := 22
  addressToCheck := some fun i => swapText.getD i 0

theorem swapParams_hold : swapParams.Hold P2_NATIVE_SEGWIT swapPath swapText where
  parameters := by decide +kernel
  length := by decide
  path_le := by decide
  text := ⟨_, rfl, by decide +kernel⟩
  nonzero := by decide +kernel

def swapSession : Session (List Bool) := ⟨[], .empty, []⟩

theorem swapDevice_pubkey :
    returned? (getDerivedPubkey swapDevice swapKeys ⟨0, 1, .normal 0, 0⟩) swapSession =
      some addressPubkey := by
  decide +kernel

theorem swapAddress_receive :
    swapAddress swapCrypto .bitcoinTestnet .nativeSegwit addressPubkey = .ok (some swapText) := by
  decide +kernel

end Leaf

open Leaf in
theorem swapAddress_eq_walletAddress_receive :
    ∃ script s', getWalletScript swapDevice (AddressFormat.nativeSegwit.policy none ⟨0, 1, .normal 0, 0⟩)
        swapKeys swapSession = .ok script s' ∧
      getScriptAddress swapCrypto .bitcoinTestnet script 76 = some swapText ∧
      handleCheckAddress swapCrypto .bitcoinTestnet swapParams = .ok true := by
  rcases swapAddress_eq_walletAddress swapDevice_sized .bitcoinTestnet .nativeSegwit none
    (ok_of_returned? swapDevice_pubkey) with ⟨hformat, -⟩ | ⟨address, script, hswap, hscript, haddress, hcheck⟩
  · cases hformat
  · obtain rfl : swapText = address := Option.some.inj (Except.ok.inj (swapAddress_receive.symm.trans hswap))
    exact ⟨script, _, hscript, haddress 76 (by decide), (hcheck swapPath _ _ _ rfl swapParams_hold).mpr rfl⟩

end LedgerBabylon
