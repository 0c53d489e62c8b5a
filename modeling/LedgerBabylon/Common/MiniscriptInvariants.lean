import LedgerBabylon.Common.MiniscriptSanity

/-!
# Invariants of types and attributes

The type of an accepted node and its attributes are computed in different functions, from tables that
do not mention each other. What they have in common follows from the side conditions of the parser, by
induction over the expression.
-/

namespace LedgerBabylon

variable {token : KeyToken} {ctx : Context} {k : Nat} {overread : Nat → Int16}

open Miniscript Exec

variable {isTaproot : Bool} {info : PolicyNodeExtInfo}

structure TypeInvariants (t : Typ) : Prop where
  z_o : ¬ (t.z ∧ t.o)
  n_z : ¬ (t.n ∧ t.z)
  w_n : t.base = .W → t.n = false
  v_d : t.base = .V → t.d = false
  v_u : t.base = .V → t.u = false
  k_u : t.base = .K → t.u

namespace TypeInvariants

theorem constantFlags (token : ConstantToken) : TypeInvariants (constantFlags token) := by
  cases token <;> constructor <;> simp [LedgerBabylon.constantFlags]

theorem hashFlags : TypeInvariants hashFlags := by
  constructor <;> simp [LedgerBabylon.hashFlags]

theorem uint32Flags : TypeInvariants uint32Flags := by
  constructor <;> simp [LedgerBabylon.uint32Flags]

theorem keyFlags {t : Typ} (h : keyFlags token = some t) : TypeInvariants t := by
  cases token <;> simp only [LedgerBabylon.keyFlags, reduceCtorEq, Option.some.injEq] at h <;>
    subst h <;> constructor <;> simp

theorem multisigFlags {token : MultisigToken} {t : Typ} (h : multisigFlags token = some t) :
    TypeInvariants t := by
  cases token <;> simp only [LedgerBabylon.multisigFlags, reduceCtorEq, Option.some.injEq] at h <;>
    subst h <;> constructor <;> simp

variable {x y z t : Typ}

theorem andorFlags (hx : TypeInvariants x) (hy : TypeInvariants y) (hz : TypeInvariants z)
    (h : andorFlags x y z = some t) : TypeInvariants t := by
  obtain ⟨hxo, -, -, -, -, -⟩ := hx
  obtain ⟨hyo, -, -, hyd, hyu, hyk⟩ := hy
  obtain ⟨hzo, -, -, hzd, hzu, hzk⟩ := hz
  simp only [LedgerBabylon.andorFlags] at h
  split_ifs at h with hx' hbase hw
  cases h
  constructor <;> simp_all

theorem script2Flags {token : Script2Token} (hx : TypeInvariants x) (hy : TypeInvariants y)
    (h : script2Flags token x y = some t) : TypeInvariants t := by
  obtain ⟨hxo, hxn, -, hxd, hxu, hxk⟩ := hx
  obtain ⟨hyo, hyn, hyw, hyd, hyu, hyk⟩ := hy
  cases token <;>
    simp only [LedgerBabylon.script2Flags, andVFlags, andBFlags, andNFlags, orBFlags, orCFlags, orDFlags,
      orIFlags] at h <;>
    split_ifs at h <;>
    cases h <;>
    constructor <;> simp_all
  grind

theorem threshFlags (xs : List Typ) : TypeInvariants (threshFlags xs) := by
  constructor
  · simp only [LedgerBabylon.threshFlags, Bool.and_eq_true, decide_eq_true_eq]
    omega
  all_goals simp [LedgerBabylon.threshFlags]

theorem wrapperFlags {token : WrapperToken} (hx : TypeInvariants x)
    (h : wrapperFlags isTaproot token x = some t) : TypeInvariants t := by
  obtain ⟨hxo, hxn, hxw, hxd, hxu, hxk⟩ := hx
  cases token <;> simp only [LedgerBabylon.wrapperFlags] at h <;> split_ifs at h <;>
    cases h <;> constructor <;> simp_all

end TypeInvariants

theorem Accepted.typeInvariants {x : PolicyNode} (hx : Accepted isTaproot x) {t : Typ}
    (ht : x.flags = some t) : TypeInvariants t := by
  induction hx generalizing t with
  | sh | wsh | tr => simp [PolicyNode.flags] at ht
  | constant =>
    cases ht
    exact .constantFlags _
  | withHash =>
    cases ht
    exact .hashFlags
  | withKey => exact .keyFlags ht
  | withUint32 =>
    cases ht
    exact .uint32Flags
  | multisig => exact .multisigFlags ht
  | andor _ _ _ hfx hfy hfz hflags ihx ihy ihz =>
    cases ht
    exact .andorFlags (ihx hfx) (ihy hfy) (ihz hfz) hflags
  | withScript2 _ _ hfx hfy hflags ihx ihy =>
    cases ht
    exact .script2Flags (ihx hfx) (ihy hfy) hflags
  | thresh =>
    cases ht
    exact .threshFlags _
  | wrapper _ hfx hflags ih =>
    cases ht
    exact .wrapperFlags (ih hfx) hflags

structure AttributeInvariants (t : Typ) (info : PolicyNodeExtInfo) : Prop where
  v_f : t.base = .V → info.f
  v_e : t.base = .V → info.e = false
  k_s : t.base = .K → info.s
  d_f : t.d → info.f = false
  e_d : info.e → t.d
  e_f : info.e → info.f = false

namespace AttributeInvariants

theorem constantInfo (token : ConstantToken) :
    AttributeInvariants (constantFlags token) (constantInfo token) := by
  cases token <;> constructor <;> simp [constantFlags, LedgerBabylon.constantInfo]

theorem hashInfo (token : HashToken) : AttributeInvariants hashFlags (hashInfo token) := by
  cases token <;> constructor <;> simp [hashFlags, LedgerBabylon.hashInfo]

theorem uint32Info (n : UInt32) (token : Uint32Token) :
    AttributeInvariants uint32Flags (uint32Info n token) := by
  cases token <;> constructor <;> simp [uint32Flags, LedgerBabylon.uint32Info]

theorem keyInfo {t : Typ}
    (ht : keyFlags token = some t) (h : keyInfo ctx token = some info) : AttributeInvariants t info := by
  cases token <;>
    simp only [keyFlags, LedgerBabylon.keyInfo, reduceCtorEq, Option.some.injEq] at ht h <;>
    subst ht h <;> constructor <;> simp

theorem multisigInfo {token : MultisigToken} {n : Nat} {t : Typ} (ht : multisigFlags token = some t)
    (h : multisigInfo k n token = some info) : AttributeInvariants t info := by
  cases token <;>
    simp only [multisigFlags, LedgerBabylon.multisigInfo, reduceCtorEq, Option.some.injEq] at ht h <;>
    subst ht h <;> constructor <;> simp

variable {x y z t : Typ} {ix iy iz : PolicyNodeExtInfo}

theorem andorInfo (hy : AttributeInvariants y iy) (hz : AttributeInvariants z iz)
    (h : andorFlags x y z = some t) : AttributeInvariants t (andorInfo ix iy iz) := by
  obtain ⟨hyf, -, hys, -, -, -⟩ := hy
  obtain ⟨hzf, hze, hzs, hzd, hzed, hzef⟩ := hz
  simp only [andorFlags] at h
  split_ifs at h with hx' hbase hw
  cases h
  constructor <;> simp_all [LedgerBabylon.andorInfo]

theorem script2Info {token : Script2Token} (hx : AttributeInvariants x ix)
    (hy : AttributeInvariants y iy) (h : script2Flags token x y = some t) :
    AttributeInvariants t (script2Info token ix iy) := by
  obtain ⟨hxf, hxe, hxs, hxd, hxed, hxef⟩ := hx
  obtain ⟨hyf, hye, hys, hyd, hyed, hyef⟩ := hy
  cases token <;>
    simp only [script2Flags, andVFlags, andBFlags, andNFlags, orBFlags, orCFlags, orDFlags, orIFlags] at h <;>
    split_ifs at h <;>
    cases h <;>
    constructor <;>
    simp_all [LedgerBabylon.script2Info, andVInfo, andBInfo, andNInfo, orBInfo, orCInfo, orDInfo, orIInfo] <;>
    grind

theorem threshInfo {infos : List PolicyNodeExtInfo} (h : threshInfo overread k infos = some info) (fs : List Typ) :
    AttributeInvariants (threshFlags fs) info := by
  simp only [LedgerBabylon.threshInfo, Option.ite_none_left_eq_some, Option.some.injEq] at h
  obtain ⟨-, rfl⟩ := h
  constructor <;> simp [threshFlags]

theorem wrapperInfo {token : WrapperToken} (hx : AttributeInvariants x ix)
    (h : wrapperFlags isTaproot token x = some t) :
    AttributeInvariants t (wrapperInfo ix token) := by
  obtain ⟨hxf, hxe, hxs, hxd, hxed, hxef⟩ := hx
  cases token <;> simp only [wrapperFlags] at h <;> split_ifs at h <;>
    cases h <;> constructor <;> simp_all [LedgerBabylon.wrapperInfo]

end AttributeInvariants

theorem Accepted.attributeInvariants {x : PolicyNode} (hx : Accepted isTaproot x) {t : Typ}
    (ht : x.flags = some t) (h : HasExtInfo overread ctx x info) : AttributeInvariants t info := by
  induction hx generalizing t info with
  | sh | wsh | tr => simp [PolicyNode.flags] at ht
  | constant =>
    cases ht
    cases h
    exact .constantInfo _
  | withHash =>
    cases ht
    cases h
    exact .hashInfo _
  | @withKey _ token _ =>
    have hflags : keyFlags token = some t := ht
    rw [hflags] at h
    cases h with
    | withKey h => exact .keyInfo hflags h
  | withUint32 =>
    cases ht
    cases h
    exact .uint32Info _ _
  | @multisig _ token _ _ _ _ _ _ =>
    have hflags : multisigFlags token = some t := ht
    rw [hflags] at h
    cases h with
    | multisig h => exact .multisigInfo hflags h
  | andor _ _ _ _ hfy hfz hflags _ ihy ihz =>
    cases ht
    cases h with
    | andor _ hy hz => exact .andorInfo (ihy hfy hy) (ihz hfz hz) hflags
  | withScript2 _ _ hfx hfy hflags ihx ihy =>
    cases ht
    cases h with
    | withScript2 hx hy => exact .script2Info (ihx hfx hx) (ihy hfy hy) hflags
  | thresh =>
    cases ht
    cases h with
    | thresh _ _ h => exact .threshInfo h _
  | wrapper _ hfx hflags ih =>
    cases ht
    cases h with
    | wrapper hx => exact .wrapperInfo (ih hfx hx) hflags

/-- **Invariants of miniscript.** The stored types of what `parse_script` returns, and the attributes
computed for it, keep the invariants. -/
theorem parseScript_invariants {env : ParseEnv} {fuel depth : Nat} {ctx : ParseContext}
    {s s' : ParseState} {root : PolicyNode} (h : parseScript env fuel depth ctx s = .ok root s')
    {isTaproot : Bool} {x : PolicyNode} (hx : (isTaproot, x) ∈ root.subnodes ctx.withinTr) {t : Typ}
    (ht : x.flags = some t) :
    TypeInvariants t ∧ ∀ overread c info, computeMiniscriptPolicyExtInfo overread c x = some info →
      AttributeInvariants t info := by
  have haccepted := (parseScript_accepted h).subnode hx
  refine ⟨haccepted.typeInvariants ht, ?_⟩
  intro overread c info hinfo
  exact haccepted.attributeInvariants ht (hasExtInfo_of_compute hinfo)

theorem parseScript_invariants_locked :
    ∃ root s', parseScript (.device 2) 60 0 ⟨false, false, false⟩ ⟨lockedTemplate, 0, 0⟩ = .ok root s'
      ∧ ∃ c ∈ root.subnodes false, ∃ t info, c.2.flags = some t
        ∧ computeMiniscriptPolicyExtInfo (fun _ => 0) .p2wsh c.2 = some info
        ∧ TypeInvariants t ∧ AttributeInvariants t info := by
  have hrun : ((returned? (parseScript (.device 2) 60 0 ⟨false, false, false⟩)
      ⟨lockedTemplate, 0, 0⟩).any fun root => (root.subnodes false).any fun c =>
        c.2.flags.isSome && (computeMiniscriptPolicyExtInfo (fun _ => 0) .p2wsh c.2).isSome) := by
    decide +kernel
  obtain ⟨root, hroot, hany⟩ := (Option.any_eq_true _ _).mp hrun
  obtain ⟨c, hc, hsome⟩ := List.any_eq_true.mp hany
  rw [Bool.and_eq_true, Option.isSome_iff_exists, Option.isSome_iff_exists] at hsome
  obtain ⟨⟨t, ht⟩, info, hinfo⟩ := hsome
  have hok := ok_of_returned? hroot
  obtain ⟨htype, hattributes⟩ := parseScript_invariants hok hc ht
  exact ⟨root, _, hok, c, hc, t, info, ht, hinfo, htype, hattributes _ _ _ hinfo⟩

end LedgerBabylon
