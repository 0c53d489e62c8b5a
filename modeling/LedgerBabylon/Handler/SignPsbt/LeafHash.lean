import LedgerBabylon.Handler.SignPsbt.Fee

/-!
# The leaf hash of a run

The first marker of a leaf hash that is read sets it for the whole run, although key infos are read
again while the transaction is signed. A tapscript signature commits to this hash, which is also the
one of the policy's leaf at the address of the input.
-/

namespace LedgerBabylon

open Exec

variable {σ : Type} {dev : Device σ} {g : GlobalState} {hashes : TxHashes} {kinds : List Kind}

variable {w w' : World σ} {map : MerkleizedMapCommitment} {input : InputInfo}

def Event.leafhash? : Event → Option (LeafhashKind × Bytes)
  | .leafhashRead kind leafhash => some (kind, leafhash)
  | _ => none

def leafhashes (trace : List Event) : List (LeafhashKind × Bytes) := trace.filterMap Event.leafhash?

theorem leafhashes_append (trace : List Event) (e : Event) :
    leafhashes (trace ++ [e]) = leafhashes trace ++ e.leafhash?.toList := by
  rw [leafhashes, List.filterMap_append]
  cases e <;> rfl

structure LeafhashOk (w : World σ) : Prop where
  once : (leafhashes w.trace).length ≤ 1
  stored : w.st.psbtLeafhash = (leafhashes w.trace).head?

theorem LeafhashOk.step {kind : Kind} (hstep : Step dev g hashes kind w w')
    (h : LeafhashOk w) : LeafhashOk w' := by
  obtain ⟨honce, hstored⟩ := h
  cases hstep with
  | leafhash hnone =>
    -- nothing was read before
    rw [hnone, eq_comm, List.head?_eq_none_iff] at hstored
    constructor
    · rw [World.append, leafhashes_append, hstored]
      exact le_refl 1
    · rw [World.append, leafhashes_append, hstored]
      rfl
  | session | keys | nonces | externalInput | warning | resetOutputs | output | highFee =>
    exact ⟨honce, hstored⟩
  | _ =>
    constructor
    · simpa [World.append, leafhashes_append, Event.leafhash?] using honce
    · simpa [World.append, leafhashes_append, Event.leafhash?] using hstored

theorem LeafhashOk.run (hrun : Run dev g hashes kinds w w') (h : LeafhashOk w) : LeafhashOk w' :=
  hrun.induction (J := LeafhashOk) (fun _ _ _ _ hstep => LeafhashOk.step hstep) h

theorem leafhashOk_initial (env : σ) : LeafhashOk (World.initial env) := ⟨Nat.zero_le 1, rfl⟩

/-- What the device has computed for the tapleaf of a key expression, of the policy as it is read, at an
address. -/
def LeafComputed (dev : Device σ) (g : GlobalState) (keyexpr : Nat) (change : Bool)
    (addressIndex : UInt32) (leafhash : Bytes) : Prop :=
  ∃ keyExpr leaf s s' hash, g.policy.keyexprs[keyexpr]? = some (keyExpr, some leaf) ∧
    PolicyCache dev g s.cache ∧ hash.bytes = leafhash ∧
    computeTapleafHash dev (g.header.derivation change addressIndex true) leaf s = .ok hash s'

/-- The hash that the committed key infos give for the tapleaf of a key expression. -/
def Commitments.leafhashAt (c : Commitments dev.env) (wallet : WalletPolicy) (keyexpr : Nat)
    (change : Bool) (addressIndex : UInt32) : Option Bytes := do
  let found ← wallet.policy.keyexprs[keyexpr]?
  let leaf ← found.2
  let hash ← c.tapleafHash wallet.header leaf change addressIndex
  return hash.bytes

/-- The run works with the policy as it is written, and the hash is the one of its tapleaf. -/
structure LeafCompiled (dev : Device σ) (g : GlobalState) (wallet : WalletPolicy) (keyexpr : Nat)
    (change : Bool) (addressIndex : UInt32) (leafhash : Bytes) : Prop where
  policy : g.policy = wallet.policy
  committed (c : Commitments dev.env) : c.leafhashAt wallet keyexpr change addressIndex = some leafhash

/-- What is known of a tapscript signature that is yielded after the given events. -/
structure SignedLeaf (dev : Device σ) (g : GlobalState) (wallet : WalletPolicy) (before : List Event)
    (sig : Signature) (leafhash : Bytes) : Prop where
  marker : ∃ kind, leafhashes before = [(kind, leafhash)] ∧ (kind = .display → LeafConfirmed before leafhash)
  message : ∃ common, sig.sighash = .tagged dev (common ++ (leafhash ++ [0x00, 0xFF, 0xFF, 0xFF, 0xFF]))
  computed : LeafComputed dev g sig.keyexpr sig.isChange sig.addressIndex leafhash
  compiled : wallet.policy.MusigLast →
    LeafCompiled dev g wallet sig.keyexpr sig.isChange sig.addressIndex leafhash

theorem segwitInput_inOut {input' : InputInfo} {script : Bytes} {s s' : Session σ}
    (h : segwitInput dev g map input s = .ok (input', script) s') :
    input'.inOut.isChange = input.inOut.isChange ∧ input'.inOut.addressIndex = input.inOut.addressIndex := by
  obtain ⟨type, s1, -, h⟩ := bind_ok h
  obtain ⟨utxo, s2, -, h⟩ := bind_ok h
  obtain ⟨utxo, s3, -, h⟩ := bind_ok h
  obtain ⟨script, s4, -, h⟩ := bind_ok h
  obtain ⟨heq, -⟩ := pure_ok h
  cases heq
  exact ⟨rfl, rfl⟩

/-- The leaf hash of a key expression for an input was computed from the policy as it is read, and is
the committed one if that is the written one. -/
theorem Prepared.leafhash {key : KeyexprInfo} {index : Nat} (h : Prepared dev g key map input index)
    {internalKey : KeyExpr} {tree : Option (PolicyTree PolicyNode)}
    (hpolicy : g.policy = .tr internalKey tree) (htapscript : key.isTapscript) :
    LeafComputed dev g key.index input.inOut.isChange input.inOut.addressIndex key.tapleafHash ∧
    ∀ wallet, g.header = wallet.header → g.policy = wallet.policy → wallet.policy.Numbered →
      LeafCompiled dev g wallet key.index input.inOut.isChange input.inOut.addressIndex key.tapleafHash := by
  obtain ⟨-, -, key0, s, s', hkey0, hcache, hfill⟩ := h
  obtain ⟨hfound, hsome⟩ := hkey0.leaf internalKey tree hpolicy
  rcases fillTaprootKeyexprInfo_ok hfill with ⟨hnone, rfl⟩ | ⟨leaf, hash, hleaf, hhash, rfl⟩
  · simp [hnone, htapscript] at hsome
  · rw [hleaf] at hfound
    refine ⟨⟨key0.keyExpr, leaf, s, s', hash, hfound, hcache, rfl, hhash⟩, ?_⟩
    intro wallet hheader heq hnumbered
    refine ⟨heq, fun c => ?_⟩
    have hkeys : ∀ key ∈ leaf.keys, key ∈ g.policy.keys := hkey0.leafKeys leaf hleaf
    have hcommitted := c.tapleafHash_eq (heq ▸ hnumbered) hcache hkeys hhash
    rw [heq] at hfound
    rw [hheader] at hcommitted
    simp [Commitments.leafhashAt, hfound, hcommitted]

theorem Signable.leaf {sig : Signature} (h : Signable dev g hashes w sig) {wallet : WalletPolicy}
    (hheader : g.header = wallet.header)
    (hlast : wallet.policy.MusigLast → g.policy = wallet.policy ∧ wallet.policy.Numbered)
    (hw : LeafhashOk w) (hkind : sig.kind ≠ .ecdsa) {leafhash : Bytes} (hleaf : sig.leaf = some leafhash) :
    SignedLeaf dev g wallet w.trace sig leafhash := by
  obtain ⟨key, map, input, index, hprepared, hsigned⟩ := h
  cases hsigned with
  | legacy | segwitv0 => exact absurd rfl hkind
  | @segwitv1 internalKey tree input' script inputData singleOutput extension kind path s s' t t' u u'
      hinput hpolicy hsegwit hdata hsingle hchecked hpath =>
      obtain ⟨hchange, haddress⟩ := segwitInput_inOut hsegwit
      cases hchecked with
      | keyPath htapscript => simp [KeyexprInfo.signature, KeyexprInfo.yieldedLeaf, htapscript] at hleaf
      | @tapscript leafKind htapscript hleafhash hshown =>
        obtain rfl : key.tapleafHash = leafhash := by
          simpa [KeyexprInfo.signature, KeyexprInfo.yieldedLeaf, htapscript] using hleaf
        obtain ⟨hcomputed, hcompiled⟩ := hprepared.leafhash hpolicy htapscript
        rw [← hchange, ← haddress] at hcomputed hcompiled
        have hmarker : leafhashes w.trace = [(leafKind, key.tapleafHash)] := by
          have hhead := hw.stored.symm.trans hleafhash
          obtain ⟨rest, hrest⟩ := List.head?_eq_some_iff.mp hhead
          have honce := hw.once
          rw [hrest, List.length_cons] at honce
          have hnil : rest = [] := List.eq_nil_of_length_eq_zero (by omega)
          rw [hrest, hnil]
        exact ⟨⟨leafKind, hmarker, hshown⟩, ⟨_, rfl⟩, hcomputed, fun h =>
          hcompiled wallet hheader (hlast h).1 (hlast h).2⟩

/-- The leaf hash changes at most once in a run. A tapscript signature is yielded only after that: it
commits to the hash, and a hash to be displayed is accepted by the user for each signature anew. It is
the hash of the leaf as it is read, and of the policy's leaf at the input's address if no musig
expression comes before another key of its node. -/
theorem signedLeaf_bound (dev : Device σ) (protocolVersion : Nat) (raw : Bytes) (env : σ) :
    LeafhashOk (finalState (handlerSignPsbt dev protocolVersion raw) (World.initial env)) ∧
    ∀ before sig after, runTrace dev protocolVersion raw env = before ++ .signed sig :: after →
      sig.kind ≠ .ecdsa → ∀ leafhash, sig.leaf = some leafhash →
      ∃ (i : Initialised dev protocolVersion raw env) (wallet : WalletPolicy),
        startPolicy dev raw env = some wallet ∧ SignedLeaf dev i.g wallet before sig leafhash := by
  have hends := handlerSignPsbt_ends dev protocolVersion raw env
  constructor
  · obtain ⟨g, hashes, hrun⟩ := hends.run
    exact (leafhashOk_initial env).run hrun
  · intro before sig after hsplit hkind leafhash hleaf
    obtain ⟨a, v, hrun, rfl, hsig⟩ := hends.signed_at hsplit
    have hv : LeafhashOk v := ((leafhashOk_initial env).run (a.run_all a.txHashes)).run hrun
    obtain ⟨wallet, hstart, hheader, -, hlast⟩ := a.startPolicy_eq
    exact ⟨a.toInitialised, wallet, hstart, hsig.leaf hheader hlast hv hkind hleaf⟩

namespace Leaf

open Endian Vault

def leafhash : Bytes := beBytes 32 0x2258e04d5e6e61300f2372d073e358bef87e53c4794f83260dda56e751b401da

/-- A marker with this hash. -/
def marker : Bytes :=
  text "[69846d00]tpubD6NzVbkrYhZ4WLczPJWReQycCJdd6YVWXubbVUFnJ5KgU5MDQrD998ZJLSRDQXVCB7NWjAdRKH9awBc3Y58UuedwAhBVCg8354iLNEgEbwZ"

/-- The hash of the leaf of the second wallet as it is read. -/
def leafhashAsRead : Bytes := beBytes 32 0x55930aef4156d33bafdfd90089d65a47b3b3fdd83aba1ab86bb2950d69a4bb9c

def markerAsRead : Bytes :=
  text "[69846d00]tpubD6NzVbkrYhZ4WLczPJWReQycCJdd6YVWXubbVUFnJ5KgU5MDQrD998ZJLSomwHm4Nm1r3oD4Jh11hreARA1V7fRhHMSYvDY1xEw6wzGUV2Q"

/-- The hash of the leaf of the second wallet as it is written. -/
def leafhashAsWritten : Bytes := beBytes 32 0xe3711f56260abe51afb947fc75e1a6ea17c70277e6ef2a63e2a842e71b7241a9

def cosigners : List Bytes := [
  text "tpubD6NzVbkrYhZ4WLczPJWReQycCJdd6YVWXubbVUFnJ5KgU5MDQrD998ZJLSt7R2RjegsbUbjkqxxs7xdLDaBGxivcXPgNku2eLa5PGrHVWzA",
  text "tpubD6NzVbkrYhZ4WLczPJWReQycCJdd6YVWXubbVUFnJ5KgU5MDQrD998ZJLSh4N3XAFUf3sxZYBXEipFMwWqVCTkrZYnpHY3VeFo8FundguyH"]

def aggregatePubkey : Bytes := beBytes 33 0x035047fa43839fafa43458c012c98bce40562ecdff0e1e11b7fd5a2119e4658447

def tapleafTag : Digest := .ofNat 0xaeea8fdc4208983105734b58081d1e2638d35f1cb54008d4d357ca03be78e9ee

def tapsighashTag : Digest := .ofNat 0xf40a48df4b2a70c8b4924bf2654661ed3d95fd66a313eb87237597c628e4a031

def changePubkey : Bytes := beBytes 33 0x03181076c4909ae7a836d89c21c29ba331fe76f26fcf1f576fc5e94680dac885ea

def addressPubkey : Bytes := beBytes 33 0x020c7f4de1cc760fc068775b1513d67d0a7802f0b4b1c61aa85784ebf722905b27

/-- The key of the account at step 131074, and the first address key of it. -/
def stepPubkey : Bytes := beBytes 33 0x03dbf17bfa2e84060015117625e9f11c0acf89e08626486c30de927676e6add0b5

def stepAddressPubkey : Bytes :=
  beBytes 33 0x02b666dde8f7ab2e09804bcd533f0c0ca7a2fa6a0a42452d2adda50926a6218b06

/-- The script of the input. -/
def inputScript : Bytes := beBytes 34 0x5120cc553acb92251b42ef380a734ddd3730bd456311f0de97d393d850b12a8e57a9

/-- What is hashed for all inputs and outputs: outpoints, amounts, scripts, sequences, outputs. -/
def txHashes : List (Bytes × Digest) := [
  (beBytes 36 0x456edc21a3c224dbbbf4ef97292d7acfd36b241c52aaf55c6f3b7ed59712df7700000000,
    .ofNat 0xb722f7a2a2d4c775b99de9bb239bc091dc34c1856dbc06b64f7ea58a4497bca1),
  (leBytes 8 1000, .ofNat 0x921ac7f259f864606624eb7fc29124712ff65b425e9500a35dd32b71ddb9332c),
  (34 :: inputScript, .ofNat 0xa2986af21c98bc7ea8d1ea3eebd196a4a0e4637c63ecfc5396a433590a66e9ce),
  ([0xFF, 0xFF, 0xFF, 0xFF], .ofNat 0xad95131bc0b799c0b1af477fb14fcf26a6a9f76079e48bf090acb7e8367bfd0e),
  (leBytes 8 900 ++ 22 :: recipient,
    .ofNat 0x548a2c17da4879700465fbb7371a8cecd2eb0c45a5704726b53dc287c004fcca)]

def message (leafhash : Bytes) : Bytes :=
  beBytes 10 0x00000200000000000000 ++ txHashes.flatMap (·.2.bytes) ++ beBytes 5 0x0200000000 ++ leafhash ++
    beBytes 5 0x00ffffffff

def sighash : Digest := .ofNat 0x8845bc856072a884dd04358e5d1f4ee89174f3592ab815d10438a8f5c1c21fcb

def sighashAsRead : Digest := .ofNat 0xf4ba2b692ffec3c6d6f99cdcc9519bc32f238c0c3d75840a1846499a5b42ee36

/-- The hashes for the checksum of a key without origin and chain code. -/
def checksumHashes (x : Bytes) (first second : Nat) : List (Bytes × Digest) :=
  [(beBytes 4 0x043587cf ++ List.replicate 41 0 ++ 2 :: x, .ofNat first), (beBytes 32 first, .ofNat second)]

def tapleaf (script : Bytes) : Bytes :=
  tapleafTag.bytes ++ tapleafTag.bytes ++ 0xC0 :: UInt8.ofNat script.length :: script

/-- The script of multi_a(1, musig(...), key). -/
def oneOfTwo (pubkey : Bytes) : Bytes :=
  0x20 :: aggregatePubkey.drop 1 ++ 0xAC :: 0x20 :: pubkey.drop 1 ++ [0xBA, 0x51, 0x9C]

def accountKeyHash : Digest := .ofNat 0xd6a2c2e07d7deeabf114963bca13c9beb08f29df6ab38eefac94f4ffde67fefb

def changeKeyHash : Digest := .ofNat 0xeab340c910b126249f9a0d6051f826afc3280390bfe746bdf3e24f56860f8879

def stepKeyHash : Digest := .ofNat 0x3f44e41f25ad10d24c328427d7c143f190e25f5584a89e9471dfa087d0172a64

def hashTable : List (Bytes × Digest) := keyHashes ++
  checksumHashes leafhash
    0x254af2e20fa1f47b7d56e13ec5f7e94d0ad0519708cbfccae18ac9c24ebdb765
    0x9b32077ce465fe0d71ecdd58380b588c8f396f3436a6f22c282180e1222a1941 ++
  checksumHashes leafhashAsRead
    0x1b8b50fd50808205dbff53784fe88c78365c9e03dceb5411ebd2953c8604af66
    0x500ae109e6687625d22a7790101dbdb257acfa96466666ddc96437f73c04d726 ++
  checksumHashes (beBytes 32 0x5f6b5f22ac3d3abaa06818aad625c74d68fbd07ac25c93296ff931c8af66a48e)
    0x830d938b5225281383c3a2cf5b361170fc02ee543227a57574e2e89de7530b0f
    0xa25be1c7fd0d7358f77162273f3b570290d049314238a537fbbd70fee9c24b0c ++
  checksumHashes (beBytes 32 0x4652b7c4298915c90da0e4a9abb69f673f8c76dafe33cc6f5ff5d5c6db9eb9bb)
    0xaf6b1632abbbe578f04a9ad3e66a5c046df588e0182cc112de8bf25d609c5078
    0x18a88288aa4d10aa1ef0dc7681def8a2a44990325056ca5ad3e607b1daadfb77 ++ txHashes ++ [
    (accountPubkey, accountKeyHash), (changePubkey, changeKeyHash), (stepPubkey, stepKeyHash),
    (text "TapLeaf", tapleafTag),
    (tapleaf (0x20 :: addressPubkey.drop 1 ++ [0xAC]), .ofNat (beNat leafhash)),
    (tapleaf (oneOfTwo stepAddressPubkey), .ofNat (beNat leafhashAsRead)),
    (tapleaf (oneOfTwo addressPubkey), .ofNat (beNat leafhashAsWritten)),
    (text "TapSighash", tapsighashTag),
    (tapsighashTag.bytes ++ tapsighashTag.bytes ++ message leafhash, sighash),
    (tapsighashTag.bytes ++ tapsighashTag.bytes ++ message leafhashAsRead, sighashAsRead)]

/-- The steps of the derivation of keys: what is hashed, the hash, and the child. -/
def children : List (Bytes × Bytes × Bytes) := [
  (accountPubkey ++ [0x00, 0x00, 0x00, 0x00],
    beBytes 64 0x1e74310ae400c0843d080347d2dd1584cc4531961488c4dd4e3488d8ffcfd5db4a9326e7087bc1c8aadc3d3f4f5f09f0e0c9738b879d89123dd59d607973e7e9,
    changePubkey),
  (changePubkey ++ [0x00, 0x00, 0x00, 0x00],
    beBytes 64 0xaf4b503aeabb366e6d600dbeeb90621aaef365c6275ee12d41e97d0c323ef6fb5c86abe6ba638c70da43088467b2ff746954beb8ea5a5d2686fb7620155a4aed,
    addressPubkey),
  (accountPubkey ++ [0x00, 0x02, 0x00, 0x02],
    beBytes 64 0xbe6d4b76638fb7e7d589f909fe6fd54b9dd7d6e4506995cd1a259fcf7479acd28062a564496ace2b32fbdfa4d8b622f4900dd6f813596225955dad381d4f9fcc,
    stepPubkey),
  (stepPubkey ++ [0x00, 0x00, 0x00, 0x00],
    beBytes 64 0xdb740d40d2408b38871e6b02d143219e587cee9f724518c48b43352d1f0496533ad6d4823ac50e20c8c6a99758a79517defd6a65ebdba73c5f34e6453751b7e1,
    stepAddressPubkey)]

def seckey : Bytes := beBytes 32 0xec17954e4436ea7c80865eae9ed5bde1f3bc0a7aeaaa7e1d15ee6ecc15f04654

def stepSeckey : Bytes := beBytes 32 0xb8396cbfab4b36aa32c6b1b4b01b3d2db4295bbbc228e6686b66df56a7297b62

def account : List UInt32 := [0x80000054, 0x80000001, 0x80000000]

def crypto : Crypto where
  pubkeyVersion := 0x043587CF
  sha256 := sha256Table hashTable
  ripemd160 message := ([(accountKeyHash.bytes, beBytes 20 0xc948860aeff060964c9a5a5be91931c8c52014d3),
      (changeKeyHash.bytes, beBytes 20 0x8a0709bc7dceb1bf6b5bcbbff40710dfeb4a2338),
      (stepKeyHash.bytes, beBytes 20 0x7ac25e86238f343c4c4fe43e0e1204f61aa46f95)].lookup message).getD
    (ripemd160 message)
  hmacSha512 _ message := ((children.lookup message).map Prod.fst).getD []
  addPoint k point := (children.find? fun c => c.1.take 33 = point ∧ c.2.1.take 32 = k).map fun c => c.2.2
  addPointXonly _ _ := none
  pubkeyAtPath
  privkeyAtPath path := [(account ++ [0, 0], seckey), (account ++ [131074, 0], stepSeckey)].lookup path
  pubkeyOf key := [(seckey, addressPubkey), (stepSeckey, stepAddressPubkey)].lookup key
  ecdsaSign _ _ := none
  schnorrSign key hash := [
    ((seckey, sighash.bytes),
      beBytes 64 0x3560f86c7ec15e78cc16291a3c9708bb7a5a8533dc1fd2cd823c3f27cf431de3825580564c76e317dc2db7abae6eea834f6bc2b0925b6844c2d0188165721345),
    ((stepSeckey, sighashAsRead.bytes),
      beBytes 64 0x32605ed3fbac4559e40c7d15089c6621b0d9b247458dafa1a22b98f1ea8ef04d552c6b8d21b64c2b155c31b2a4c5bf25f5d7bd41a13155f0eb363b6c078b8905)].lookup
      (key, hash)

def policyId : Digest := .ofNat 0xe0d8254293cf555f0f5f10926a161f8b1f683bb15f614c5400b4fcbc0c3d7e13

def template : Bytes := text "tr(@0/**,pk(@1/**))"

def musigPolicyId : Digest := .ofNat 0x9b76596b2ea67d71f922bd8ff5c953be45f245316209e9a79e58be6b7e5dc211

/-- The last key is read as `@0/<131074;131073>/*`. -/
def musigTemplate : Bytes := text "tr(@3/**,multi_a(1,musig(@1,@2)/**,@0/**))"

def templateHash : Digest := .ofNat 0xda4cb76634983c02c657de46cbe9a23e5c3ec2a41a02f41dd65bf065469c3524

def musigTemplateHash : Digest := .ofNat 0x41d8601abaf42d49e52924b4239eec339932c4920f1a51313a15b26b633ec8d3

def keysRoot : Digest := .ofNat 0x7597373fe7bdde13e4a0010994ffbec417b7b6021d69c49427221abd01fa8c88

def musigKeysRoot : Digest := .ofNat 0xeca0f6e9e13de2150278180390eb4ed0a032fd1954011d6f7e58bfa8198064ef

def values : Digest := .ofNat 0x701f660afc166702cc6afd2033c75ea6a6a4994da27bd22d30fd731a1e15c204

def inputs : Digest := .ofNat 0x7cde321b507c8b06a25884fc65213db07d0ec490b6a81c30705c6e5fa75a8469

def known : KnownData where
  trees := payments ++ [(keysRoot, [marker, Vault.keyInfo]),
    (musigKeysRoot, Vault.keyInfo :: cosigners ++ [markerAsRead]), (values, inputValues 1000 inputScript 0),
    (inputs, [mapElement 3 inputKeys values])]
  preimages := [(policyId, serializedPolicy template templateHash 2 keysRoot), (templateHash, template),
    (musigPolicyId, serializedPolicy musigTemplate musigTemplateHash 4 musigKeysRoot),
    (musigTemplateHash, musigTemplate)]

def device : Device (List Bool) :=
  { Vault.device crypto payments with
    env := .known crypto.sha256 known
    musigKeyAgg := fun _ => aggregatePubkey }

def request (policyId : Digest) : Bytes := Vault.request 1 inputs policyId

def noWarnings : Warnings := ⟨false, false, false⟩

/-- The signature for a key expression with a change step, and with a leaf hash. -/
def signed (keyexpr : Nat) (step : UInt32) (leafhash : Bytes) (sighash : Digest) : Signature where
  kind := .schnorr
  input := 0
  keyexpr
  isChange := false
  addressIndex := 0
  sighashType := 0
  sighash := ⟨message leafhash, sighash.bytes⟩
  path := account ++ [step, 0]
  leaf := some leafhash

/-- The events before the signature: the user accepts the transaction and the leaf hash. -/
def events (template leafhash : Bytes) : List Event :=
  [.policyRead (text "Vault") template, .leafhashRead .display leafhash, .inputAmount 1000,
    .classified 0 false, .outputAmount 900, .outputRead ⟨900, .ok recipient, false, 0⟩,
    .outputsHashed (leBytes 8 900 ++ 22 :: recipient),
    .shown (.validateTransactionSimplified (text "Vault") 900 (some address) noWarnings 100) noWarnings true,
    .shown (.confirmLeafhash leafhash) noWarnings true]

def trace (policyId : Digest) : List Event := runTrace device 1 (request policyId) [true, true]

theorem trace_eq : trace policyId =
    events template leafhash ++ [.signed (signed 1 0 leafhash sighash), .statusWord 0x9000 none] := by
  decide +kernel

theorem trace_musig_eq : trace musigPolicyId = events musigTemplate leafhashAsRead ++
    [.signed (signed 2 131074 leafhashAsRead sighashAsRead), .statusWord 0x9000 none] := by
  decide +kernel

def commitments : Commitments device.env := KnownData.commitments crypto.sha256 known

theorem startPolicies : (startPolicy device (request policyId) [true, true]).any (·.policy.MusigLast) ∧
    (startPolicy device (request musigPolicyId) [true, true]).any
      (fun wallet => commitments.leafhashAt wallet 2 false 0 = some leafhashAsWritten) :=
  ⟨by decide +kernel, by decide +kernel⟩

end Leaf

open Leaf in
theorem signedLeaf_bound_display :
    ∃ (i : Initialised device 1 (request policyId) [true, true]) (wallet : WalletPolicy),
      startPolicy device (request policyId) [true, true] = some wallet ∧
      SignedLeaf device i.g wallet (events template leafhash) (signed 1 0 leafhash sighash) leafhash ∧
      LeafCompiled device i.g wallet 1 false 0 leafhash := by
  obtain ⟨i, wallet, hstart, hsigned⟩ := (signedLeaf_bound device 1 (request policyId) [true, true]).2
    _ _ _ trace_eq (by decide) leafhash rfl
  have hlast := startPolicies.1
  rw [hstart] at hlast
  exact ⟨i, wallet, hstart, hsigned, hsigned.compiled (of_decide_eq_true hlast)⟩

open Leaf in
/-- A signature for another leaf than the one that is written in the policy. -/
theorem not_signedLeaf_bound : trace musigPolicyId = events musigTemplate leafhashAsRead ++
      [.signed (signed 2 131074 leafhashAsRead sighashAsRead), .statusWord 0x9000 none] ∧
    ∃ wallet, startPolicy device (request musigPolicyId) [true, true] = some wallet ∧
      ∀ g, ¬LeafCompiled device g wallet 2 false 0 leafhashAsRead := by
  obtain ⟨wallet, hstart, hwritten⟩ := (Option.any_eq_true _ _).mp startPolicies.2
  refine ⟨trace_musig_eq, wallet, hstart, fun g h => ?_⟩
  have heq := (h.committed commitments).symm.trans (of_decide_eq_true hwritten)
  exact absurd heq (by decide +kernel)

end LedgerBabylon
