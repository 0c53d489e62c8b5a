import LedgerBabylon.Handler.CommittedScript
import LedgerBabylon.Handler.FetchFailures
import LedgerBabylon.Handler.PreimageDelivery

/-!
# Templates that a header commits to

The header of a V2 policy has the hash and the length of the descriptor template. The template is
fetched as the preimage of the hash, whose length is not compared with the header's; then so many bytes
of the array are parsed as the header says. If the preimage is shorter, these include what the array
held before.
-/

namespace LedgerBabylon

open Exec HashPath

/-- A successful run on a V2 policy whose header has the template's hash. Preimages come from the
device's client command. -/
structure PolicyRead (dev : Device Outside) (raw : Bytes) (hash : Digest) (s : Session Outside)
    (wallet : WalletPolicy) (s' : Session Outside) : Prop where
  wire : ∀ hash outLen,
    dev.env.preimage hash outLen = Outside.command (callGetPreimage dev.crypto.sha256 hash outLen)
  run : readAndParseWalletPolicy dev raw s = .ok wallet s'
  templateHash : wallet.header.descriptorTemplate = .inr hash

structure WalletPolicy.CommittedTo (sha256 : Bytes → Digest) (hash : Digest) (wallet : WalletPolicy)
    (template : Bytes) : Prop where
  digest : sha256 template = hash
  length : template.length = wallet.header.descriptorTemplateLen
  parse : parseDescriptorTemplate (ParseEnv.device wallet.header.version) template = some wallet.policy

namespace PolicyRead

variable {dev : Device Outside} {raw : Bytes} {hash : Digest} {wallet : WalletPolicy} {s s' : Session Outside}

def LengthsAgree (s : Session Outside) (wallet : WalletPolicy) : Prop :=
  announcedPreimageLen s.env.comm.incoming = wallet.header.descriptorTemplateLen

structure Fetched (dev : Device Outside) (hash : Digest) (s : Session Outside) (wallet : WalletPolicy)
    (s' : Session Outside) (preimage : Bytes) : Prop where
  length : preimage.length = announcedPreimageLen s.env.comm.incoming
  hashed : newlyHashed s.env.comm s'.env.comm = [preimage]
  digest : dev.crypto.sha256 preimage = hash
  template_eq : LengthsAgree s wallet → wallet.template = preimage
  parse : parseDescriptorTemplate (ParseEnv.device wallet.header.version) wallet.template = some wallet.policy

theorem fetchTemplate_ok {header : PolicyMapWalletHeader} {descriptor : Memory} (hwire : ∀ hash outLen,
      dev.env.preimage hash outLen = Outside.command (callGetPreimage dev.crypto.sha256 hash outLen))
    (hhash : header.descriptorTemplate = .inr hash)
    (h : fetchTemplate dev header s = .ok descriptor s') :
    ∃ len out preimage, descriptor = dev.uninitialised.write 0 out ∧
      PreimageFetched dev.crypto.sha256 hash maxDescriptorTemplateLengthV2 s.env.comm len out s'.env.comm
        preimage := by
  simp only [fetchTemplate, hhash, hwire] at h
  obtain ⟨answer, s1, hask, h⟩ := bind_ok h
  cases answer with
  | error code => simp at h
  | ok answer =>
    obtain ⟨len, out⟩ := answer
    obtain ⟨e, hcommand, rfl⟩ := askAttempt_ok hask
    obtain ⟨c, hrun, rfl⟩ := Outside.command_ok_iff.mp hcommand
    obtain ⟨rfl, rfl⟩ := pure_ok h
    obtain ⟨preimage, hfetched⟩ := callGetPreimage_ok hrun
    exact ⟨len, out, preimage, rfl, hfetched⟩

theorem fetched (h : PolicyRead dev raw hash s wallet s') :
    ∃ preimage, Fetched dev hash s wallet s' preimage := by
  obtain ⟨descriptor, hparsed⟩ := readAndParseWalletPolicy_ok h.run
  obtain ⟨len, out, preimage, rfl, hpreimage⟩ := fetchTemplate_ok h.wire h.templateHash hparsed.fetched
  refine ⟨preimage, ?_⟩
  constructor
  case length => rw [hpreimage.length, hpreimage.announced]
  case hashed => rw [newlyHashed, hpreimage.hashed, List.drop_left]
  case digest => exact hpreimage.digest
  case template_eq =>
    intro hlen
    have hfits := readWalletPolicyHeader_length hparsed.header
    rw [← hlen, hpreimage.announced] at hfits
    rw [hparsed.template, hpreimage.out_eq hfits]
    apply Memory.read_write_same
    rw [hpreimage.length, ← hlen, hpreimage.announced]
  case parse => exact hparsed.parse

theorem committedTo (h : PolicyRead dev raw hash s wallet s') (hlen : LengthsAgree s wallet) :
    ∃ template, wallet.CommittedTo dev.crypto.sha256 hash template := by
  obtain ⟨preimage, hfetched⟩ := h.fetched
  refine ⟨preimage, hfetched.digest, hfetched.length.trans hlen, ?_⟩
  rw [← hfetched.template_eq hlen]
  exact hfetched.parse

theorem lengthsAgree (h : PolicyRead dev raw hash s wallet s') {template : Bytes}
    (htemplate : wallet.CommittedTo dev.crypto.sha256 hash template) :
    LengthsAgree s wallet ∨ Collides dev.crypto.sha256 (template :: newlyHashed s.env.comm s'.env.comm) := by
  obtain ⟨preimage, hfetched⟩ := h.fetched
  by_cases heq : template = preimage
  · left
    rw [LengthsAgree, ← hfetched.length, ← heq, htemplate.length]
  · right
    rw [hfetched.hashed]
    exact ⟨template, by simp, preimage, by simp, heq, htemplate.digest.trans hfetched.digest.symm⟩

/-- Two runs that parse what they were sent parse the same, or they hashed a collision. -/
theorem policy_eq {dev2 : Device Outside} {raw2 : Bytes} {wallet2 : WalletPolicy}
    {s2 s2' : Session Outside} (h : PolicyRead dev raw hash s wallet s')
    (h2 : PolicyRead dev2 raw2 hash s2 wallet2 s2') (hsha : dev.crypto.sha256 = dev2.crypto.sha256)
    (hheader : wallet.header = wallet2.header) (hlen : LengthsAgree s wallet)
    (hlen2 : LengthsAgree s2 wallet2) :
    wallet.policy = wallet2.policy ∨ Collides dev.crypto.sha256
      (newlyHashed s.env.comm s'.env.comm ++ newlyHashed s2.env.comm s2'.env.comm) := by
  obtain ⟨preimage, hfetched⟩ := h.fetched
  obtain ⟨preimage2, hfetched2⟩ := h2.fetched
  by_cases heq : preimage = preimage2
  · left
    have hparse := hfetched.parse
    rw [hfetched.template_eq hlen, heq, ← hfetched2.template_eq hlen2, hheader, hfetched2.parse] at hparse
    exact (Option.some.inj hparse).symm
  · right
    rw [hfetched.hashed, hfetched2.hashed]
    refine ⟨preimage, by simp, preimage2, by simp, heq, ?_⟩
    rw [hfetched.digest, hsha, hfetched2.digest]

end PolicyRead

open PolicyRead in
/-- **The tree is the parse of a template that the header commits to, exactly if the client announces
the header's length**, and then the same for two runs; or else there is a collision. -/
theorem policyRead_committed_iff {dev1 dev2 : Device Outside} {raw1 raw2 : Bytes} {hash : Digest}
    {s1 s1' s2 s2' : Session Outside} {wallet1 wallet2 : WalletPolicy}
    (h1 : PolicyRead dev1 raw1 hash s1 wallet1 s1') (h2 : PolicyRead dev2 raw2 hash s2 wallet2 s2')
    (hsha : dev1.crypto.sha256 = dev2.crypto.sha256) (hheader : wallet1.header = wallet2.header) :
    (LengthsAgree s1 wallet1 → ∃ template, wallet1.CommittedTo dev1.crypto.sha256 hash template) ∧
    (∀ template, wallet1.CommittedTo dev1.crypto.sha256 hash template → LengthsAgree s1 wallet1 ∨
      Collides dev1.crypto.sha256 (template :: newlyHashed s1.env.comm s1'.env.comm)) ∧
    (LengthsAgree s1 wallet1 → LengthsAgree s2 wallet2 → wallet1.policy = wallet2.policy ∨
      Collides dev1.crypto.sha256
        (newlyHashed s1.env.comm s1'.env.comm ++ newlyHashed s2.env.comm s2'.env.comm)) := by
  refine ⟨?_, ?_, ?_⟩
  · exact h1.committedTo
  · intro template htemplate
    exact h1.lengthsAgree htemplate
  · exact h1.policy_eq h2 hsha hheader

namespace SixteenBytes

def template : Bytes := text "wpkh(@0/<0;1>/*)"

def templateHash : Digest := .ofNat 0x254a2e1a1884312393434f457be8729039c1adeb19e67206f0f2c179bb287015

def start : Bytes := text "wpkh(@0/<0;"

def startHash : Digest := .ofNat 0x894a9aceb0ea80d208dc032977b99ea06e9dd714059f63016062e0f39cb78e92

def sha256 : Bytes → Digest := sha256Table [(template, templateHash), (start, startHash)]

def device (before : Bytes) : Device Outside where
  __ := OneKey.device
  crypto := { OneKey.crypto with sha256 }
  env := Environment.wire sha256 ⟨0, 0, fun _ => 0⟩ [] fun _ => pure none
  uninitialised := Memory.ofList before

/-- A policy without a name and with one key. Its header has the length of the whole template. -/
def policy (hash : Digest) : Bytes := [2, 0, 16] ++ hash.bytes ++ [1] ++ OneKey.root.bytes

def client (preimage : Bytes) : Session Outside :=
  OneKey.session [UInt8.ofNat preimage.length :: UInt8.ofNat preimage.length :: preimage]

def wallet? (hash : Digest) (preimage before : Bytes) : Option WalletPolicy :=
  returned? (readAndParseWalletPolicy (device before) (policy hash)) (client preimage)

theorem policyRead {hash : Digest} {preimage before : Bytes} {wallet : WalletPolicy}
    (h : wallet? hash preimage before = some wallet)
    (hhash : wallet.header.descriptorTemplate = .inr hash) :
    PolicyRead (device before) (policy hash) hash (client preimage) wallet
      (finalState (readAndParseWalletPolicy (device before) (policy hash)) (client preimage)) where
  wire _ _ := rfl
  run := ok_of_returned? h
  templateHash := hhash

def HasStep (hash : Digest) (numSecond : UInt32) (wallet : WalletPolicy) : Prop :=
  wallet.header.descriptorTemplate = .inr hash ∧ wallet.header.descriptorTemplateLen = 16 ∧
    wallet.policy.keys = [⟨0, numSecond, .normal 0, 0⟩]

instance (hash : Digest) (numSecond : UInt32) (wallet : WalletPolicy) :
    Decidable (HasStep hash numSecond wallet) := inferInstanceAs (Decidable (_ ∧ _ ∧ _))

theorem template_read : (wallet? templateHash template []).any (HasStep templateHash 1 ·) := by
  decide +kernel

theorem start_read : (wallet? startHash start (text "wpkh(@0/<0;1>/*)")).any (HasStep startHash 1 ·) ∧
      (wallet? startHash start (text "wpkh(@0/<0;2>/*)")).any (HasStep startHash 2 ·) := by
  decide +kernel

theorem eq_start {message : Bytes} (h : sha256 message = startHash) : message = start := by
  rcases List.mem_cons.mp (mem_of_sha256Table_eq h (by decide)) with heq | hmem
  · have hhash : startHash = templateHash := (Prod.ext_iff.mp heq).2
    exact absurd hhash (by decide)
  · exact (Prod.ext_iff.mp (List.mem_singleton.mp hmem)).1

theorem newlyHashed_start {before : Bytes} {wallet : WalletPolicy} {s' : Session Outside}
    (h : PolicyRead (device before) (policy startHash) startHash (client start) wallet s') :
    newlyHashed (client start).env.comm s'.env.comm = [start] := by
  obtain ⟨preimage, hfetched⟩ := h.fetched
  rw [hfetched.hashed, eq_start hfetched.digest]

end SixteenBytes

open SixteenBytes in
theorem policyRead_committed_iff_template :
    ∃ wallet s', PolicyRead (device []) (policy templateHash) templateHash (client template) wallet s' ∧
      ∃ template, wallet.CommittedTo sha256 templateHash template := by
  obtain ⟨wallet, hwallet, hstep⟩ := (Option.any_eq_true _ _).mp template_read
  obtain ⟨hhash, hlen, -⟩ := of_decide_eq_true hstep
  have hread := policyRead hwallet hhash
  have hagree : PolicyRead.LengthsAgree (client template) wallet := by
    rw [PolicyRead.LengthsAgree, hlen]
    decide
  exact ⟨wallet, _, hread, (policyRead_committed_iff hread hread rfl rfl).1 hagree⟩

open SixteenBytes in
/-- The client sends the start of a template, and the parser goes on with what was in the array: two
trees for one header, the first of them no parse of a committed template. -/
theorem not_policyRead_committed : ∃ wallet1 s1' wallet2 s2',
      PolicyRead (device (text "wpkh(@0/<0;1>/*)")) (policy startHash) startHash (client start) wallet1 s1' ∧
      PolicyRead (device (text "wpkh(@0/<0;2>/*)")) (policy startHash) startHash (client start) wallet2 s2' ∧
      wallet1.header = wallet2.header ∧ wallet1.policy ≠ wallet2.policy ∧
      ¬Collides sha256 (newlyHashed (client start).env.comm s1'.env.comm ++
        newlyHashed (client start).env.comm s2'.env.comm) ∧
      ∀ template, ¬wallet1.CommittedTo sha256 startHash template := by
  obtain ⟨wallet1, hwallet1, hstep1⟩ := (Option.any_eq_true _ _).mp start_read.1
  obtain ⟨wallet2, hwallet2, hstep2⟩ := (Option.any_eq_true _ _).mp start_read.2
  obtain ⟨hhash1, hlen1, hkeys1⟩ := of_decide_eq_true hstep1
  obtain ⟨hhash2, -, hkeys2⟩ := of_decide_eq_true hstep2
  have hread1 := policyRead hwallet1 hhash1
  have hread2 := policyRead hwallet2 hhash2
  refine ⟨wallet1, _, wallet2, _, hread1, hread2, ?_, ?_, ?_, ?_⟩
  · obtain ⟨_, hparsed1⟩ := readAndParseWalletPolicy_ok hread1.run
    obtain ⟨_, hparsed2⟩ := readAndParseWalletPolicy_ok hread2.run
    exact Option.some.inj (hparsed1.header.symm.trans hparsed2.header)
  · intro heq
    rw [heq, hkeys2] at hkeys1
    exact absurd hkeys1 (by decide)
  · rw [newlyHashed_start hread1, newlyHashed_start hread2]
    decide +kernel
  · intro template htemplate
    have hlen := htemplate.length
    rw [eq_start htemplate.digest, hlen1] at hlen
    exact absurd hlen (by decide)

end LedgerBabylon
