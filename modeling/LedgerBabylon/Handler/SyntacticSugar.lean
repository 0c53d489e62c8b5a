import LedgerBabylon.Common.MiniscriptInfo
import LedgerBabylon.Common.PolicyParser
import LedgerBabylon.Handler.RedeemScript

/-!
# Syntactic sugar

Comments in the source call some fragments short for others: `pk(K)` is `c:pk_k(K)`, `and_n(X,Y)` is
`andor(X,Y,0)`, `l:X` is `or_i(0,X)`. Each of them has its own case in the parser, in the compiler and
in the analysis. The short form and the expansion are compared here in all three.
-/

namespace LedgerBabylon

open Exec Miniscript

variable {a : Int16} {x : PolicyNodeExtInfo}

namespace PolicyNode

-- nodes with the flags that the parser gives them, which are none where it rejects the expression

def ofConstant (token : ConstantToken) : PolicyNode := .constant (some (constantFlags token)) token

def ofKey (token : KeyToken) (key : KeyExpr) : PolicyNode := .withKey (keyFlags token) token key

def ofAndor (x y z : PolicyNode) : PolicyNode :=
  .andor (x.flags.bind fun x => y.flags.bind fun y => z.flags.bind fun z => andorFlags x y z) x y z

def ofScript2 (token : Script2Token) (x y : PolicyNode) : PolicyNode :=
  .withScript2 (x.flags.bind fun x => y.flags.bind fun y => script2Flags token x y) token x y

def ofWrapper (isTaproot : Bool) (token : WrapperToken) (x : PolicyNode) : PolicyNode :=
  .wrapper (x.flags.bind fun x => wrapperFlags isTaproot token x) token x

@[simp] theorem flags_ofConstant (token : ConstantToken) :
    (ofConstant token).flags = some (constantFlags token) := rfl

@[simp] theorem flags_ofKey (token : KeyToken) (key : KeyExpr) : (ofKey token key).flags = keyFlags token :=
  rfl

@[simp] theorem flags_ofAndor (x y z : PolicyNode) : (ofAndor x y z).flags =
    x.flags.bind fun x => y.flags.bind fun y => z.flags.bind fun z => andorFlags x y z := rfl

@[simp] theorem flags_ofScript2 (token : Script2Token) (x y : PolicyNode) :
    (ofScript2 token x y).flags = x.flags.bind fun x => y.flags.bind fun y => script2Flags token x y := rfl

@[simp] theorem flags_ofWrapper (isTaproot : Bool) (token : WrapperToken) (x : PolicyNode) :
    (ofWrapper isTaproot token x).flags = x.flags.bind fun x => wrapperFlags isTaproot token x := rfl

end PolicyNode

inductive Sugar where
  | pk (key : KeyExpr)
  | pkh (key : KeyExpr)
  | andN (x y : PolicyNode)
  | t (x : PolicyNode)
  | l (x : PolicyNode)
  | u (x : PolicyNode)

variable {form : Sugar}

namespace Sugar

open PolicyNode

section

variable (isTaproot : Bool)

def short : Sugar → PolicyNode
  | .pk key => ofKey .pk key
  | .pkh key => ofKey .pkh key
  | .andN x y => ofScript2 .andN x y
  | .t x => ofWrapper isTaproot .t x
  | .l x => ofWrapper isTaproot .l x
  | .u x => ofWrapper isTaproot .u x

def expansion : Sugar → PolicyNode
  | .pk key => ofWrapper isTaproot .c (ofKey .pkK key)
  | .pkh key => ofWrapper isTaproot .c (ofKey .pkH key)
  | .andN x y => ofAndor x y (ofConstant .zero)
  | .t x => ofScript2 .andV x (ofConstant .one)
  | .l x => ofScript2 .orI (ofConstant .zero) x
  | .u x => ofScript2 .orI x (ofConstant .zero)

end

variable {σ : Type} (dev : Device σ) (wdi : WalletDerivationInfo) (overread : Nat → Int16) (ctx : Context)

/-- The short form and its expansion cannot be told apart. The scripts are compared under every flag and
with room for two nodes or more, which `c:pk_k(K)` takes. -/
structure Equivalent (form : Sugar) : Prop where
  flags : (form.short (ctx = .tapscript)).flags = (form.expansion (ctx = .tapscript)).flags
  script : ∀ type room flagV, compileNode dev wdi type (room + 2) flagV (form.short (ctx = .tapscript)) =
      compileNode dev wdi type (room + 2) flagV (form.expansion (ctx = .tapscript))
  extInfo : computeMiniscriptPolicyExtInfo overread ctx (form.short (ctx = .tapscript)) =
    computeMiniscriptPolicyExtInfo overread ctx (form.expansion (ctx = .tapscript))

end Sugar

def Regular (a : Int16) : Prop := 0 ≤ a ∨ a = -1

instance (a : Int16) : Decidable (Regular a) := inferInstanceAs (Decidable (_ ∨ _))

theorem regular_sumcheck (a b : Int16) : Regular (sumcheck a b) := by
  by_cases h : 0 ≤ a ∧ 0 ≤ b
  · exact .inl (sumcheck_nonneg_iff.mpr h)
  · right
    rw [sumcheck, if_pos]
    rw [not_and_or, Int16.not_le, Int16.not_le] at h
    simpa using h

theorem sumcheck_neg_one (a : Int16) : sumcheck a (-1) = -1 := by
  rw [sumcheck, if_pos]
  simp

theorem eq_sumcheck_zero : a = sumcheck a 0 ↔ Regular a := by
  constructor
  · intro h
    rw [h]
    exact regular_sumcheck a 0
  · rintro (h | rfl)
    · have hneg : ¬ a < 0 := Int16.not_lt.mpr h
      have hmax := a.toInt_lt
      have hzero : (0 : Int16).toInt = 0 := rfl
      simp only [sumcheck, hneg, decide_false, Bool.false_or]
      rw [if_neg (by decide), if_neg (by omega), Int16.add_zero]
    · decide

theorem maxcheck_eq_left {b : Int16} : maxcheck a b = a ↔ b ≤ a ∧ (a < 0 → b = a) := by
  rw [maxcheck]
  split_ifs with hneg hlt
  · constructor
    · rintro rfl
      exact ⟨Int16.le_refl b, fun _ => rfl⟩
    · intro h
      exact h.2 hneg
  · simp [Int16.le_of_lt hlt, hneg]
  · constructor
    · rintro rfl
      exact ⟨Int16.le_refl b, fun _ => rfl⟩
    · intro h
      exact Int16.le_antisymm h.1 (Int16.not_lt.mp hlt)

theorem eq_maxcheck_neg_one : a = maxcheck a (-1) ↔ Regular a := by
  rw [eq_comm, maxcheck_eq_left]
  constructor
  · rintro ⟨hle, hneg⟩
    rcases Int16.lt_or_le a 0 with ha | ha
    · exact .inr (hneg ha).symm
    · exact .inl ha
  · rintro (ha | rfl)
    · exact ⟨Int16.le_trans (by decide) ha, fun h => absurd ha (Int16.not_le.mpr h)⟩
    · decide

theorem eq_maxcheck_zero_left : a = maxcheck 0 a ↔ 0 ≤ a := by
  simp only [maxcheck, Int16.lt_irrefl, if_false]
  split_ifs with ha
  · refine iff_of_false (fun h => ?_) (Int16.not_le.mpr ha)
    rw [h] at ha
    exact Int16.lt_irrefl ha
  · exact iff_of_true rfl (Int16.not_lt.mp ha)

theorem eq_maxcheck_zero_right : a = maxcheck a 0 ↔ 0 ≤ a := by
  rw [eq_comm, maxcheck_eq_left, and_iff_left_iff_imp]
  intro ha h
  exact absurd ha (Int16.not_le.mpr h)

theorem maxcheck_comm {b : Int16} (ha : Regular a) (hb : Regular b) : maxcheck a b = maxcheck b a := by
  rcases ha with ha | rfl
  · rcases hb with hb | rfl
    · rw [maxcheck, maxcheck, if_neg (Int16.not_lt.mpr ha), if_neg (Int16.not_lt.mpr hb)]
      split_ifs with hab hba hba
      · exact absurd hab (Int16.not_lt.mpr (Int16.le_of_lt hba))
      · rfl
      · rfl
      · exact Int16.le_antisymm (Int16.not_lt.mp hba) (Int16.not_lt.mp hab)
    · rw [← eq_maxcheck_neg_one.mpr (.inl ha)]
      rfl
  · rw [← eq_maxcheck_neg_one.mpr hb]
    rfl

namespace Timelocks

-- the locks of the two constants are neutral

theorem either_constant (x : Timelocks) (token : ConstantToken) :
    either x (constantInfo token).locks = x := by
  cases token <;> simp [either, constantInfo]

theorem constant_either (x : Timelocks) (token : ConstantToken) :
    either (constantInfo token).locks x = x := by
  cases token <;> simp [either, constantInfo]

theorem both_constant (x : Timelocks) (token : ConstantToken) : both x (constantInfo token).locks = x := by
  cases token <;> simp [both, either, mixed, constantInfo]

theorem andor_constant (x y : Timelocks) (token : ConstantToken) :
    andor x y (constantInfo token).locks = both x y := by
  cases token <;> simp [andor, both, either, constantInfo]

end Timelocks

/-- When `and_n(X,Y)` has the attributes of `andor(X,Y,0)`: one of `X` and `Y` requires a signature
unless both forms are malleable, and dissatisfying `Y`, which neither form does, takes no more keys than
satisfying `X` and `Y`. -/
structure AndNAgrees (x y : PolicyNodeExtInfo) : Prop where
  m : x.m → y.m → x.e → x.s ∨ y.s
  keys : y.ops.dsat ≤ sumcheck y.ops.sat x.ops.sat
  impossible : sumcheck y.ops.sat x.ops.sat < 0 → y.ops.dsat = sumcheck y.ops.sat x.ops.sat
  ops : Regular x.ops.dsat
  ss : Regular x.ss.dsat

theorem andNInfo_eq_andorInfo {y : PolicyNodeExtInfo} :
    andNInfo x y = andorInfo x y (constantInfo .zero) ↔ AndNAgrees x y := by
  have hsize : 4 + x.scriptSize + y.scriptSize = 3 + x.scriptSize + y.scriptSize + 1 := by
    grind
  have hm : (x.m && y.m && x.e && (x.s || y.s)) = (x.m && y.m && x.e) ↔ (x.m → y.m → x.e → x.s ∨ y.s) := by
    cases x.m <;> cases y.m <;> cases x.e <;> simp
  have hsat : ∀ a b c : Int16, maxcheck (sumcheck a b) (sumcheck c (-1)) = sumcheck a b := by
    intro a b c
    rw [sumcheck_neg_one, ← eq_maxcheck_neg_one.mpr (regular_sumcheck a b)]
  simp only [andNInfo, andorInfo, PolicyNodeExtInfo.mk.injEq, MiniscriptOps.mk.injEq,
    MiniscriptStacksize.mk.injEq, Timelocks.andor_constant]
  simp only [constantInfo, hsat, hsize, hm, maxcheck_eq_left, eq_sumcheck_zero, Bool.true_and, Bool.and_true, Bool.false_and, Bool.or_true, and_true, true_and, UInt16.add_zero]
  constructor
  · rintro ⟨⟨hkeys, hops⟩, hss, hm⟩
    exact ⟨hm, hkeys.1, hkeys.2, hops, hss⟩
  · intro h
    exact ⟨⟨⟨h.keys, h.impossible⟩, h.ops⟩, h.ss, h.m⟩

theorem wrapperInfo_t_eq_andVInfo :
    wrapperInfo x .t = andVInfo x (constantInfo .one) ↔ Regular x.ops.sat ∧ Regular x.ss.sat := by
  simp only [wrapperInfo, andVInfo, Timelocks.both_constant]
  simp [constantInfo, eq_sumcheck_zero]

theorem wrapperInfo_l_eq_orIInfo : wrapperInfo x .l = orIInfo (constantInfo .zero) x ↔ 0 ≤ x.ops.dsat := by
  have hsize : x.scriptSize + 4 = 3 + 1 + x.scriptSize := UInt16.add_comm _ _
  simp only [wrapperInfo, orIInfo, Timelocks.constant_either, hsize]
  simp [constantInfo, eq_maxcheck_zero_left, show sumcheck (-1) 1 = -1 from rfl,
    show sumcheck 0 1 = 1 from rfl, show ∀ a, maxcheck (-1) a = a from fun _ => rfl]

theorem wrapperInfo_u_eq_orIInfo :
    wrapperInfo x .u = orIInfo x (constantInfo .zero) ↔ Regular x.ops.sat ∧ 0 ≤ x.ops.dsat := by
  have hsize : x.scriptSize + 4 = 3 + x.scriptSize + 1 := by
    grind
  have hsat := eq_maxcheck_neg_one.mpr (regular_sumcheck x.ss.sat 1)
  have hdsat : maxcheck 1 (sumcheck x.ss.dsat 1) = maxcheck (sumcheck x.ss.dsat 1) 1 :=
    maxcheck_comm (.inl (by decide)) (regular_sumcheck _ _)
  simp only [wrapperInfo, orIInfo, Timelocks.either_constant, hsize, hdsat]
  simp [constantInfo, eq_maxcheck_neg_one, eq_maxcheck_zero_right, show sumcheck (-1) 1 = -1 from rfl,
    show sumcheck 0 1 = 1 from rfl, ← hsat]

theorem andNFlags_eq (x y : Typ) : andNFlags x y = andorFlags x y (constantFlags .zero) := by
  have hbase : y.base = .B → y.base ≠ .W := by
    intro h
    simp [h]
  simp only [andNFlags, andorFlags, constantFlags]
  split_ifs <;> simp_all

theorem wrapperFlags_t_eq {isTaproot : Bool} {x : Typ} :
    wrapperFlags isTaproot .t x = andVFlags x (constantFlags .one) ↔ x.base = .V := by
  simp [wrapperFlags, andVFlags, constantFlags]

theorem wrapperFlags_l_eq (isTaproot : Bool) (x : Typ) :
    wrapperFlags isTaproot .l x = orIFlags (constantFlags .zero) x := by
  simp [wrapperFlags, orIFlags, constantFlags, eq_comm]

theorem wrapperFlags_u_eq (isTaproot : Bool) (x : Typ) :
    wrapperFlags isTaproot .u x = orIFlags x (constantFlags .zero) := by
  have hbase : x.base = .B → x.base ≠ .W := by
    intro h
    simp [h]
  simp only [wrapperFlags, orIFlags, constantFlags]
  split_ifs <;> simp_all

namespace Sugar

open PolicyNode

theorem flags_expansion {isTaproot : Bool} : (form.short isTaproot).flags = (form.expansion isTaproot).flags ↔
      ∀ x, form = .t x → ∀ flags ∈ x.flags, flags.base = .V := by
  cases form with
  | pk key | pkh key => simp [short, expansion, keyFlags, wrapperFlags]
  | andN x y => simp [short, expansion, script2Flags, andNFlags_eq]
  | t x =>
    simp only [short, expansion, flags_ofWrapper, flags_ofScript2, flags_ofConstant, script2Flags,
      Option.bind_some, t.injEq, forall_eq']
    cases x.flags with
    | none => simp
    | some f => simpa using wrapperFlags_t_eq
  | l x => simp [short, expansion, script2Flags, wrapperFlags_l_eq]
  | u x => simp [short, expansion, script2Flags, wrapperFlags_u_eq]

section

variable {σ : Type} {dev : Device σ} {wdi : WalletDerivationInfo}

/-- Except for `pk(K)`, the two forms have the same script. -/
theorem compileNode_expansion (hform : ∀ key, form ≠ .pk key) (isTaproot : Bool)
    (type : InternalScriptType) (room : Nat) (flagV : Bool) :
    compileNode dev wdi type (room + 2) flagV (form.short isTaproot) =
      compileNode dev wdi type (room + 2) flagV (form.expansion isTaproot) := by
  by_cases htype : type = .wsh ∨ type = .tapscript
  · cases form with
    | pk key => exact absurd rfl (hform key)
    | pkh key =>
      simp [short, expansion, ofWrapper, ofKey, compileNode, fragmentAllowed, htype, processNode,
        processPkh, processCommands, processCommand, pkHCommands, WrapperToken.commands]
    | andN x y =>
      simp [short, expansion, ofAndor, ofScript2, ofConstant, compileNode, fragmentAllowed, htype,
        processNode, processCommands, processCommand, andorCommands, Script2Token.commands,
        ConstantToken.commands, outputOpV]
    | t x | l x | u x =>
      simp [short, expansion, ofWrapper, ofScript2, ofConstant, compileNode, fragmentAllowed, htype,
        processNode, processCommands, processCommand, WrapperToken.commands, Script2Token.commands,
        ConstantToken.commands, outputOpV]
  · cases form <;>
      simp [short, expansion, ofWrapper, ofAndor, ofScript2, ofKey, compileNode, fragmentAllowed, htype]

/-- `c:pk_k(K)` has one opcode more than `pk(K)`, so that the scripts only agree where there is none. -/
theorem compileNode_pk {key : KeyExpr} {isTaproot : Bool} :
    (∀ type room flagV, compileNode dev wdi type (room + 2) flagV (short isTaproot (.pk key)) =
      compileNode dev wdi type (room + 2) flagV (expansion isTaproot (.pk key))) ↔
      ∀ s, returned? (getDerivedPubkey dev wdi key) s = none := by
  simp only [Option.eq_none_iff_forall_ne_some]
  constructor
  · intro h s pubkey hpubkey
    have hs := congrFun (h .wsh 0 false) s
    simp only [short, expansion, ofWrapper, ofKey, compileNode, fragmentAllowed, processNode,
      processCommands, processCommand, pkCommands, pkKCommands, WrapperToken.commands, outputOpV,
      pushPubkey] at hs
    simp [map_apply_eq_iff, hpubkey] at hs
  · intro h type room flagV
    by_cases htype : type = .wsh ∨ type = .tapscript
    · funext s
      simp [short, expansion, ofWrapper, ofKey, compileNode, fragmentAllowed, htype, processNode,
        processCommands, processCommand, pkCommands, pkKCommands, WrapperToken.commands, pushPubkey,
        map_apply_eq_iff, h]
    · simp [short, expansion, ofWrapper, ofKey, compileNode, fragmentAllowed, htype]

end

section

variable {σ : Type} (dev : Device σ) (wdi : WalletDerivationInfo) (overread : Nat → Int16) (ctx : Context)

/-- When the two forms are equivalent, where they are accepted at all. `pk(K)` is equivalent to
`c:pk_k(K)` only for a key that cannot be derived. -/
def Agrees : Sugar → Prop
  | .pk key => ∀ s, returned? (getDerivedPubkey dev wdi key) s = none
  | .pkh _ => True
  | .andN x y => (short (ctx = .tapscript) (.andN x y)).isMiniscript →
      ∀ ix ∈ computeMiniscriptPolicyExtInfo overread ctx x,
        ∀ iy ∈ computeMiniscriptPolicyExtInfo overread ctx y, AndNAgrees ix iy
  | .t x => (∀ flags ∈ x.flags, flags.base = .V) ∧ ((short (ctx = .tapscript) (.t x)).isMiniscript →
      ∀ ix ∈ computeMiniscriptPolicyExtInfo overread ctx x, Regular ix.ops.sat ∧ Regular ix.ss.sat)
  | .l x => (short (ctx = .tapscript) (.l x)).isMiniscript →
      ∀ ix ∈ computeMiniscriptPolicyExtInfo overread ctx x, 0 ≤ ix.ops.dsat
  | .u x => (short (ctx = .tapscript) (.u x)).isMiniscript →
      ∀ ix ∈ computeMiniscriptPolicyExtInfo overread ctx x, Regular ix.ops.sat ∧ 0 ≤ ix.ops.dsat

end

variable {overread : Nat → Int16} {ctx : Context}

theorem extInfo_ofWrapper (isTaproot : Bool) (token : WrapperToken) (x : PolicyNode) :
    computeMiniscriptPolicyExtInfo overread ctx (ofWrapper isTaproot token x) =
      if (ofWrapper isTaproot token x).isMiniscript then
        (computeMiniscriptPolicyExtInfo overread ctx x).bind fun ix => some (wrapperInfo ix token)
      else none := by
  rw [ofWrapper, computeMiniscriptPolicyExtInfo]
  rfl

theorem extInfo_ofScript2 (token : Script2Token) (x y : PolicyNode) :
    computeMiniscriptPolicyExtInfo overread ctx (ofScript2 token x y) =
      if (ofScript2 token x y).isMiniscript then
        (computeMiniscriptPolicyExtInfo overread ctx x).bind fun ix =>
          (computeMiniscriptPolicyExtInfo overread ctx y).bind fun iy => some (script2Info token ix iy)
      else none := by
  rw [ofScript2, computeMiniscriptPolicyExtInfo]
  rfl

theorem extInfo_ofAndor (x y z : PolicyNode) : computeMiniscriptPolicyExtInfo overread ctx (ofAndor x y z) =
      if (ofAndor x y z).isMiniscript then
        (computeMiniscriptPolicyExtInfo overread ctx x).bind fun ix =>
          (computeMiniscriptPolicyExtInfo overread ctx y).bind fun iy =>
            (computeMiniscriptPolicyExtInfo overread ctx z).bind fun iz => some (andorInfo ix iy iz)
      else none := by
  rw [ofAndor, computeMiniscriptPolicyExtInfo]
  rfl

theorem extInfo_ofConstant (token : ConstantToken) :
    computeMiniscriptPolicyExtInfo overread ctx (ofConstant token) = some (constantInfo token) := rfl

theorem ite_some_eq_iff {α : Type} {p : Prop} [Decidable p] {a b : α} :
    (if p then some a else none) = (if p then some b else none) ↔ (p → a = b) := by
  by_cases hp : p <;> simp [hp]

/-- Where they are accepted alike, the two forms have the same attributes if those of the
sub-expressions allow it. -/
theorem extInfo_expansion {σ : Type} {dev : Device σ} {wdi : WalletDerivationInfo}
    (hflags : (form.short (ctx = .tapscript)).flags = (form.expansion (ctx = .tapscript)).flags)
    (hpk : ∀ key, form ≠ .pk key) :
    computeMiniscriptPolicyExtInfo overread ctx (form.short (ctx = .tapscript)) =
      computeMiniscriptPolicyExtInfo overread ctx (form.expansion (ctx = .tapscript)) ↔
    form.Agrees dev wdi overread ctx := by
  have hmini : (form.short (ctx = .tapscript)).isMiniscript =
      (form.expansion (ctx = .tapscript)).isMiniscript := congrArg Option.isSome hflags
  cases form with
  | pk key => exact absurd rfl (hpk key)
  | pkh key =>
    refine iff_of_true ?_ trivial
    rw [short, expansion, extInfo_ofWrapper]
    cases ctx <;> rfl
  | andN x y =>
    simp only [short, expansion, Agrees] at hmini ⊢
    rw [extInfo_ofScript2, extInfo_ofAndor, ← hmini, extInfo_ofConstant]
    cases computeMiniscriptPolicyExtInfo overread ctx x <;>
      cases computeMiniscriptPolicyExtInfo overread ctx y <;>
        simp [script2Info, ite_some_eq_iff, andNInfo_eq_andorInfo]
  | t x =>
    simp only [short, expansion, Agrees] at hmini ⊢
    rw [extInfo_ofWrapper, extInfo_ofScript2, ← hmini, extInfo_ofConstant,
      and_iff_right (flags_expansion.mp hflags x rfl)]
    cases computeMiniscriptPolicyExtInfo overread ctx x <;>
      simp [script2Info, ite_some_eq_iff, wrapperInfo_t_eq_andVInfo]
  | l x =>
    simp only [short, expansion, Agrees] at hmini ⊢
    rw [extInfo_ofWrapper, extInfo_ofScript2, ← hmini, extInfo_ofConstant]
    cases computeMiniscriptPolicyExtInfo overread ctx x <;>
      simp [script2Info, ite_some_eq_iff, wrapperInfo_l_eq_orIInfo]
  | u x =>
    simp only [short, expansion, Agrees] at hmini ⊢
    rw [extInfo_ofWrapper, extInfo_ofScript2, ← hmini, extInfo_ofConstant]
    cases computeMiniscriptPolicyExtInfo overread ctx x <;>
      simp [script2Info, ite_some_eq_iff, wrapperInfo_u_eq_orIInfo]

variable {σ : Type} {dev : Device σ} {wdi : WalletDerivationInfo}

theorem Agrees.flags (h : form.Agrees dev wdi overread ctx) :
    (form.short (ctx = .tapscript)).flags = (form.expansion (ctx = .tapscript)).flags := by
  apply flags_expansion.mpr
  rintro x rfl
  exact h.1

theorem equivalent_iff_agrees (form : Sugar) :
    form.Equivalent dev wdi overread ctx ↔ form.Agrees dev wdi overread ctx := by
  by_cases hform : ∃ key, form = .pk key
  · obtain ⟨key, rfl⟩ := hform
    constructor
    · intro h
      exact compileNode_pk.mp h.script
    · intro h
      refine ⟨h.flags, compileNode_pk.mpr h, ?_⟩
      rw [short, expansion, extInfo_ofWrapper]
      cases ctx <;> rfl
  · have hpk : ∀ key, form ≠ .pk key := fun key hkey => hform ⟨key, hkey⟩
    constructor
    · intro h
      exact (extInfo_expansion h.flags hpk).mp h.extInfo
    · intro h
      exact ⟨h.flags, compileNode_expansion hpk _, (extInfo_expansion h.flags hpk).mpr h⟩

end Sugar

namespace MasterKey

open PolicyNode

def older : PolicyNode := .withUint32 (some uint32Flags) .older 1

/-- A preimage of the right length, which can be dissatisfied in one way only and needs no signature. -/
def preimage : PolicyNode := ofWrapper false .j (ofScript2 .andV
    (ofWrapper false .v (.withHash (some hashFlags) .sha256 (List.replicate 32 0))) (ofConstant .one))

/-- The script of `pk(K)` is not that of `c:pk_k(K)`, `t:X` takes other types than `and_v(X,1)`, and
`and_n(X,Y)`, `l:X` and `u:X` have other attributes than their expansions. -/
theorem not_sugar_equivalent :
    [Sugar.pk ⟨0, 1, .normal 0, 0⟩, .t older, .andN preimage older, .l older, .u older].Forall fun form =>
      ¬ form.Equivalent (device sixteenKeysHash sixteenKeys) twoKeys (fun _ => 0) .p2wsh := by
  have hpk : returned? (getDerivedPubkey (device sixteenKeysHash sixteenKeys) twoKeys
      ⟨0, 1, .normal 0, 0⟩) session ≠ none := by
    decide +kernel
  refine ⟨fun h => ?_, fun h => ?_, fun h => ?_, fun h => ?_, fun h => ?_⟩
  · exact hpk (Sugar.compileNode_pk.mp h.script session)
  · exact absurd h.flags (by decide)
  · exact absurd h.extInfo (by decide +kernel)
  · exact absurd h.extInfo (by decide +kernel)
  · exact absurd h.extInfo (by decide +kernel)

end MasterKey

end LedgerBabylon
