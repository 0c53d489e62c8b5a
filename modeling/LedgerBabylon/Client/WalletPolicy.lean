import LedgerBabylon.Client.Merkle
import LedgerBabylon.Client.Streams
import LedgerBabylon.Handler.RedeemScript
import LedgerBabylon.Handler.RegisterWallet

/-!
# Wallet policies of the clients

A client sends a wallet policy as a header: the version, the name, the length and the hash of the
descriptor template, the number of keys and the root of the Merkle tree of their texts. For ASCII texts
the three clients write the same bytes, and the device reads back what was written.
-/

namespace LedgerBabylon

open List

abbrev Text := List Char

def Text.IsAscii (s : Text) : Prop := ∀ c ∈ s, c.toNat < 128

instance (s : Text) : Decidable s.IsAscii := decidableBAll (fun c : Char => c.toNat < 128) s

def Text.utf8 (s : Text) : Bytes := s.flatMap String.utf8EncodeChar

def Text.utf16 (s : Text) : List Nat := s.flatMap fun c =>
    if c.toNat < 0x10000 then [c.toNat]
    else [0xD800 + (c.toNat - 0x10000) / 0x400, 0xDC00 + (c.toNat - 0x10000) % 0x400]

def Text.ascii (s : Text) : Bytes := s.utf16.map UInt8.ofNat

theorem Text.IsAscii.utf16_eq {s : Text} (h : s.IsAscii) : s.utf16 = s.map Char.toNat := by
  induction s with
  | nil => rfl
  | cons c s ih =>
    have hc : c.toNat < 128 := h c mem_cons_self
    have hrest : utf16 s = s.map Char.toNat := ih fun d hd => h d (mem_cons_of_mem _ hd)
    rw [utf16, flatMap_cons, if_pos (by omega), map_cons, ← hrest]
    rfl

theorem Text.IsAscii.utf8_eq {s : Text} (h : s.IsAscii) : s.utf8 = s.ascii := by
  rw [ascii, h.utf16_eq]
  induction s with
  | nil => rfl
  | cons c s ih =>
    have hc : c.val.toNat ≤ 0x7F := Nat.le_of_lt_succ (h c mem_cons_self)
    have hrest : utf8 s = _ := ih fun d hd => h d (mem_cons_of_mem _ hd)
    have hchar : String.utf8EncodeChar c = [UInt8.ofNat c.toNat] := if_pos hc
    rw [utf8, flatMap_cons, hchar, map_cons, map_cons, ← hrest]
    rfl

theorem Text.IsAscii.length_ascii {s : Text} (h : s.IsAscii) : s.ascii.length = s.length := by
  rw [ascii, h.utf16_eq, length_map, length_map]

inductive WalletVersion where
  | v1
  | v2
  deriving DecidableEq

def WalletVersion.value : WalletVersion → UInt8
  | .v1 => 1
  | .v2 => 2

section

variable (sha256 : Bytes → Digest)

def serializeTemplateAndKeys (encode : Nat → Bytes) (version : WalletVersion) (template : Bytes) (nKeys : Nat)
    (root : Digest) : Bytes :=
  encode template.length ++ (if version = .v1 then template else (sha256 template).bytes) ++
    encode nKeys ++ root.bytes

/-- `WalletPolicy.serialize` of the Python client. A name of more than 255 bytes raises an error. -/
def Python.serialize (version : WalletVersion) (name descriptorTemplate : Text) (keysInfo : List Text) :
    Option Bytes :=
  if 255 < name.utf8.length then none
  else do
    let mt ← Python.MerkleTree.init sha256 (keysInfo.map fun k => merkleComputeElementHash sha256 k.utf8)
    let root ← mt.root
    return version.value :: UInt8.ofNat name.utf8.length :: name.utf8 ++
      serializeTemplateAndKeys sha256 varintWrite version descriptorTemplate.utf8 keysInfo.length root

/-- `WalletPolicy::serialize` of the Rust client. Its keys are printed by `to_string`. -/
def Rust.serialize (varInt : VarInt) {K : Type} (toString : K → Text) (version : WalletVersion)
    (name descriptorTemplate : Text) (keys : List K) : Option Bytes := do
  let tree ← Rust.MerkleTree.new sha256
    (keys.map fun key => merkleComputeElementHash sha256 (toString key).utf8)
  let root ← tree.rootHash
  return version.value :: UInt8.ofNat name.utf8.length :: name.utf8 ++
    serializeTemplateAndKeys sha256 varInt.encode version descriptorTemplate.utf8 keys.length root

/-- `serialize` of the JavaScript client, for the second version only. Lengths are variable-length
integers, the one of the template in units of the string. -/
def JavaScript.serialize (name descriptorTemplate : Text) (keys : List Text) : Option Bytes := do
  let m ← JavaScript.Merkle.new sha256 (keys.map fun k => merkleComputeElementHash sha256 k.ascii)
  let root ← m.getRoot
  return 2 :: varintWrite name.ascii.length ++ name.ascii ++ varintWrite descriptorTemplate.utf16.length ++
    (sha256 descriptorTemplate.utf8).bytes ++ varintWrite keys.length ++ root.bytes

variable {sha256}

/-- The bytes that all clients write for ASCII texts. -/
theorem serialize_eq (varInt : VarInt) {name descriptorTemplate : Text} {keysInfo : List Text} (hname : name.IsAscii)
    (hnameLength : name.length ≤ 64) (htemplate : descriptorTemplate.IsAscii)
    (hkeys : ∀ k ∈ keysInfo, k.IsAscii) (hpos : 1 ≤ keysInfo.length) (hle : keysInfo.length ≤ 252)
    {K : Type} {toString : K → Text} {keys : List K} (htoString : keys.map toString = keysInfo) :
    ∃ root, Python.serialize sha256 .v2 name descriptorTemplate keysInfo =
        some (2 :: UInt8.ofNat name.length :: name.ascii ++
          serializeTemplateAndKeys sha256 varintWrite .v2 descriptorTemplate.ascii keysInfo.length root) ∧
      Rust.serialize sha256 varInt toString .v2 name descriptorTemplate keys =
        some (2 :: UInt8.ofNat name.length :: name.ascii ++
          serializeTemplateAndKeys sha256 varintWrite .v2 descriptorTemplate.ascii keysInfo.length root) ∧
      JavaScript.serialize sha256 name descriptorTemplate keysInfo =
        some (2 :: UInt8.ofNat name.length :: name.ascii ++
          serializeTemplateAndKeys sha256 varintWrite .v2 descriptorTemplate.ascii keysInfo.length root) ∧
      ∃ mt, Python.MerkleTree.init sha256
        (keysInfo.map fun k => merkleComputeElementHash sha256 k.ascii) = some mt ∧ mt.root = some root := by
  have hleaves : (keysInfo.map fun k => merkleComputeElementHash sha256 k.utf8) =
      keysInfo.map fun k => merkleComputeElementHash sha256 k.ascii := by
    apply map_congr_left
    intro k hk
    rw [(hkeys k hk).utf8_eq]
  have hleaves' : (keys.map fun key => merkleComputeElementHash sha256 (toString key).utf8) =
      keysInfo.map fun k => merkleComputeElementHash sha256 k.ascii := by
    rw [← hleaves, ← htoString, map_map]
    rfl
  have hlen : keys.length = keysInfo.length := by rw [← htoString, length_map]
  obtain ⟨t, -, -, ⟨python, hpython, hproot, -⟩, ⟨javaScript, hjavaScript, hjroot, -⟩, rust, hrust, hrroot,
    -⟩ :=
    @clients_serve_tree sha256 (keysInfo.map fun k => merkleComputeElementHash sha256 k.ascii)
      (length_pos_iff.mp (by rw [length_map]; omega)) (by rw [length_map]; omega)
  have hunits : descriptorTemplate.utf16.length = descriptorTemplate.ascii.length := by
    rw [Text.ascii, length_map]
  have hnameVarint : varintWrite name.length = [UInt8.ofNat name.length] := by
    unfold varintWrite varintSize
    rw [if_pos (by omega)]
    rfl
  refine ⟨t.value sha256 nodeMessage, ?_, ?_, ?_, python, hpython, hproot⟩
  · rw [Python.serialize, hname.utf8_eq, hname.length_ascii, if_neg (by omega), hleaves, hpython,
      htemplate.utf8_eq]
    simp only [Option.bind_eq_bind, Option.bind_some, hproot]
    rfl
  · rw [Rust.serialize, varInt.encode_eq, hname.utf8_eq, hname.length_ascii, hleaves', hrust, htemplate.utf8_eq, hlen]
    simp only [Option.bind_eq_bind, Option.bind_some, hrroot]
    rfl
  · rw [JavaScript.serialize, hjavaScript, htemplate.utf8_eq, hunits, hname.length_ascii, hnameVarint]
    simp only [Option.bind_eq_bind, Option.bind_some, hjroot, serializeTemplateAndKeys, cons_append,
      nil_append, append_assoc]
    rfl

theorem readWalletPolicyHeader_eq {name template : Bytes} {nKeys : Nat} (root : Digest)
    (hname : name.length ≤ maxWalletNameLength) (htemplate : template.length ≤ maxDescriptorTemplateLengthV2)
    (hkeys : nKeys ≤ 252) :
    readWalletPolicyHeader (2 :: UInt8.ofNat name.length :: name ++
        serializeTemplateAndKeys sha256 varintWrite .v2 template nKeys root) =
      some ⟨2, name, template.length, .inr (sha256 template), nKeys, root⟩ := by
  unfold maxWalletNameLength at hname
  unfold maxDescriptorTemplateLengthV2 at htemplate
  have hbyte : (UInt8.ofNat name.length).toNat = name.length := by
    rw [UInt8.toNat_ofNat', Nat.mod_eq_of_lt (by omega)]
  have hraw := Buffer.unread_ofList (2 :: UInt8.ofNat name.length :: name ++
    serializeTemplateAndKeys sha256 varintWrite .v2 template nKeys root)
  generalize hdata : 2 :: UInt8.ofNat name.length :: name ++
    serializeTemplateAndKeys sha256 varintWrite .v2 template nKeys root = raw at hraw ⊢
  have hunread : (Buffer.create 0 raw.length).Unread (Memory.ofList raw) (2 :: UInt8.ofNat name.length ::
      (name ++ (varintWrite template.length ++ ((sha256 template).bytes ++
        (varintWrite nKeys ++ (root.bytes ++ [])))))) := by
    have hassoc : 2 :: UInt8.ofNat name.length :: (name ++ (varintWrite template.length ++
        ((sha256 template).bytes ++ (varintWrite nKeys ++ (root.bytes ++ []))))) = raw := by
      rw [← hdata]
      simp [serializeTemplateAndKeys]
    rw [hassoc]
    exact hraw
  obtain ⟨b1, hversion, h1⟩ := hunread.readU8
  obtain ⟨b2, hnameLen, h2⟩ := h1.readU8
  obtain ⟨b3, hnameRead, h3⟩ := h2.readBytes
  obtain ⟨b4, htemplateLen, h4⟩ := h3.readVarint (by omega)
  obtain ⟨b5, hhash, h5⟩ := Digest.take_of_unread h4
  obtain ⟨b6, hnKeys, h6⟩ := h5.readVarint (by omega)
  obtain ⟨b7, hroot, -⟩ := Digest.take_of_unread h6
  have hversions : ¬((2 : UInt8) ≠ 1 ∧ (2 : UInt8) ≠ 2) := by decide
  have hv1 : ¬(2 : UInt8).toNat = 1 := by decide
  simp only [readWalletPolicyHeader, readHeaderTemplate, hversion, hnameLen, hbyte, hnameRead, htemplateLen,
    hhash, hnKeys, hroot, Option.bind_eq_bind, Option.pure_def, Option.bind_some, if_neg hversions, if_neg hv1,
    maxWalletNameLength, maxDescriptorTemplateLengthV2, if_neg (not_lt.mpr hname),
    if_neg (not_lt.mpr htemplate), if_neg (not_lt.mpr hkeys)]
  rfl

end

/-- **Round trip.** The clients serialize an ASCII policy to the same bytes, the device reads it back,
and its id is the hash of the bytes. -/
theorem walletPolicy_roundTrip {σ : Type} (dev : Device σ) (varInt : VarInt) {name descriptorTemplate : Text}
    {keysInfo : List Text} (hname : name.IsAscii) (hnameLength : name.length ≤ 64)
    (htemplate : descriptorTemplate.IsAscii) (htemplateLength : descriptorTemplate.length ≤ 512)
    (hkeys : ∀ k ∈ keysInfo, k.IsAscii) (hpos : 1 ≤ keysInfo.length) (hle : keysInfo.length ≤ 252)
    {K : Type} {toString : K → Text} {keys : List K} (htoString : keys.map toString = keysInfo) :
    ∃ serialized root header,
      Python.serialize dev.crypto.sha256 .v2 name descriptorTemplate keysInfo = some serialized ∧
      Rust.serialize dev.crypto.sha256 varInt toString .v2 name descriptorTemplate keys = some serialized ∧
      JavaScript.serialize dev.crypto.sha256 name descriptorTemplate keysInfo = some serialized ∧
      (∃ mt, Python.MerkleTree.init dev.crypto.sha256
          (keysInfo.map fun k => merkleComputeElementHash dev.crypto.sha256 k.ascii) = some mt ∧
        mt.root = some root) ∧
      readWalletPolicyHeader serialized = some header ∧
      header = ⟨2, name.ascii, descriptorTemplate.length, .inr (dev.crypto.sha256 descriptorTemplate.ascii),
        keysInfo.length, root⟩ ∧
      getPolicyWalletId dev header = dev.crypto.sha256 serialized := by
  obtain ⟨root, hpython, hrust, hjavaScript, hroot⟩ := @serialize_eq dev.crypto.sha256 varInt _ _ _ hname
    hnameLength htemplate hkeys hpos hle _ _ _ htoString
  have hheader := @readWalletPolicyHeader_eq dev.crypto.sha256 name.ascii descriptorTemplate.ascii _ root
    (by rw [hname.length_ascii]; exact hnameLength) (by rw [htemplate.length_ascii]; exact htemplateLength) hle
  rw [hname.length_ascii, htemplate.length_ascii] at hheader
  refine ⟨_, root, _, hpython, hrust, hjavaScript, hroot, hheader, rfl, ?_⟩
  simp [getPolicyWalletId, serializeTemplateAndKeys, hname.length_ascii, htemplate.length_ascii]

namespace TwoKeyVault

def template : Text := "wsh(sortedmulti(2,@0/**,@1/**))".toList

def keys : List Text := ["tpubA".toList, "tpubB".toList]

end TwoKeyVault

open TwoKeyVault MasterKey in
/-- The policy of two keys with the name "Vault". -/
theorem walletPolicy_roundTrip_vault : ∃ serialized root header,
      Python.serialize sha256 .v2 "Vault".toList template keys = some serialized ∧
      Rust.serialize sha256 .minimal id .v2 "Vault".toList template keys = some serialized ∧
      JavaScript.serialize sha256 "Vault".toList template keys = some serialized ∧
      (∃ mt, Python.MerkleTree.init sha256
          (keys.map fun k => merkleComputeElementHash sha256 (Text.ascii k)) = some mt ∧
        mt.root = some root) ∧
      readWalletPolicyHeader serialized = some header ∧
      header = ⟨2, Text.ascii "Vault".toList, 31, .inr (sha256 (Text.ascii template)), 2, root⟩ ∧
      getPolicyWalletId (device sixteenKeysHash sixteenKeys) header = sha256 serialized :=
  walletPolicy_roundTrip (device sixteenKeysHash sixteenKeys) .minimal (by decide) (by decide) (by decide)
    (by decide) (by decide) (by decide) (by decide) (map_id _)

end LedgerBabylon
