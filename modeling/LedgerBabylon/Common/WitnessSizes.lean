import LedgerBabylon.Common.MiniscriptSanity
import LedgerBabylon.Common.PolicyText
import LedgerBabylon.Lib.MiniscriptWays
import Mathlib.Algebra.Order.Group.Pointwise.Bounds

/-!
# The sizes of witnesses

How many elements a witness has is a cost of satisfactions. The analysis computes the largest one from
those of the children: `sumcheck` for ways that are put together, `maxcheck` for ways to choose from,
and for `thresh` a table with an entry for each number of satisfied children. The values stop at 32767,
far above what the output buffer of the parser holds.
-/

namespace LedgerBabylon

open PolicyNode List Miniscript Exec

variable {sat dsat : Int16} {children : List (Int16 × Int16)} {k : Nat} {ctx : Context}
  {info : PolicyNodeExtInfo} {overread : Nat → Int16} {isTaproot : Bool}
open scoped Pointwise

def Attains (v : Int16) (costs : Set Nat) : Prop :=
  (costs = ∅ ∧ v = -1) ∨ ∃ m : Nat, IsGreatest costs m ∧ v.toInt = min (m : Int) 32767

namespace Attains

variable {a b : Int16} {s t : Set Nat}

theorem empty : Attains (-1) ∅ := .inl ⟨rfl, rfl⟩

theorem singleton {n : Nat} (hn : n ≤ 32767) : Attains (Int16.ofNat n) {n} := by
  refine .inr ⟨n, isGreatest_singleton, ?_⟩
  rw [Int16.toInt_ofNat_of_lt (by omega)]
  omega

theorem neg_iff (h : Attains a s) : a < 0 ↔ s = ∅ := by
  have hzero : (0 : Int16).toInt = 0 := rfl
  rcases h with ⟨rfl, rfl⟩ | ⟨m, hm, ha⟩
  · exact iff_of_true (by decide) rfl
  · refine iff_of_false ?_ hm.nonempty.ne_empty
    rw [Int16.lt_iff_toInt_lt]
    omega

theorem add (ha : Attains a s) (hb : Attains b t) : Attains (sumcheck a b) (s + t) := by
  unfold sumcheck
  have hnega := ha.neg_iff
  have hnegb := hb.neg_iff
  rcases ha with ⟨rfl, rfl⟩ | ⟨m, hm, ha⟩
  · rw [Set.empty_add]
    exact empty
  rcases hb with ⟨rfl, rfl⟩ | ⟨n, hn, hb⟩
  · rw [Set.add_empty, if_pos (by simp)]
    exact empty
  have hsum : IsGreatest (s + t) (m + n) := ⟨Set.add_mem_add hm.1 hn.1, add_mem_upperBounds_add hm.2 hn.2⟩
  have ha' : ¬a < 0 := fun h => hm.nonempty.ne_empty (hnega.mp h)
  have hb' : ¬b < 0 := fun h => hn.nonempty.ne_empty (hnegb.mp h)
  refine .inr ⟨m + n, hsum, ?_⟩
  simp only [ha', hb', decide_false, Bool.or_self, Bool.false_eq_true, if_false]
  split_ifs with hmax
  · show (32767 : Int) = _
    omega
  · rw [Int16.toInt_add, Int.bmod_eq_of_le] <;> omega

theorem union (ha : Attains a s) (hb : Attains b t) : Attains (maxcheck a b) (s ∪ t) := by
  unfold maxcheck
  split_ifs with hneg hlt
  · rw [ha.neg_iff.mp hneg, Set.empty_union]
    exact hb
  · rcases ha with ⟨rfl, rfl⟩ | ⟨m, hm, ha⟩
    · exact absurd (by decide) hneg
    rcases hb with ⟨rfl, rfl⟩ | ⟨n, hn, hb⟩
    · rw [Set.union_empty]
      exact .inr ⟨m, hm, ha⟩
    · refine .inr ⟨max m n, hm.union hn, ?_⟩
      rw [gt_iff_lt, Int16.lt_iff_toInt_lt] at hlt
      omega
  · rcases ha with ⟨rfl, rfl⟩ | ⟨m, hm, ha⟩
    · exact absurd (by decide) hneg
    rcases hb with ⟨rfl, rfl⟩ | ⟨n, hn, hb⟩
    · exact absurd (Int16.lt_of_lt_of_le (by decide) (Int16.not_lt.mp hneg)) hlt
    · refine .inr ⟨max m n, hm.union hn, ?_⟩
      rw [gt_iff_lt, Int16.lt_iff_toInt_lt] at hlt
      omega

end Attains

structure Attained (sat dsat : Int16) (ways : Ways Nat) : Prop where
  sat : Attains sat ways.sat
  dsat : Attains dsat ways.dsat

structure SatsAttained (sats : List Int16) (ways : List (Ways Nat)) : Prop where
  length : sats.length = ways.length + 1
  entry : ∀ j v, sats[j]? = some v → Attains v (Ways.choose j ways)

theorem nextSatsFrom_attained {prev : Int16} {sats : List Int16} {done : List (Ways Nat)}
    {x : Ways Nat} (hx : Attained sat dsat x) {i : Nat} (hlength : i + sats.length = done.length)
    (hprev : Attains prev (Ways.choose i done))
    (hsats : ∀ j v, sats[j]? = some v → Attains v (Ways.choose (i + 1 + j) done)) :
    ∀ j v, (nextSatsFrom sat dsat prev sats)[j]? = some v →
      Attains v (Ways.choose (i + 1 + j) (done ++ [x])) := by
  induction sats generalizing prev i with
  | nil =>
    intro j v hj
    cases j with
    | zero =>
      cases hj
      have hnone : Ways.choose (i + 1) done = ∅ := Ways.choose_of_length_lt (by simp at hlength; omega)
      rw [Nat.add_zero, Ways.choose_succ_concat, hnone, Set.empty_add, Set.empty_union]
      exact hprev.add hx.sat
    | succ j => simp [nextSatsFrom] at hj
  | cons cur sats ih =>
    intro j v hj
    have hcur : Attains cur (Ways.choose (i + 1) done) := hsats 0 cur rfl
    cases j with
    | zero =>
      cases hj
      rw [Nat.add_zero, Ways.choose_succ_concat]
      exact (hcur.add hx.dsat).union (hprev.add hx.sat)
    | succ j =>
      have hindex : i + 1 + (j + 1) = i + 1 + 1 + j := by omega
      rw [hindex]
      refine ih (by rw [length_cons] at hlength; omega) hcur (fun j v hj => ?_) j v hj
      rw [Nat.add_assoc (i + 1), Nat.add_comm 1 j]
      exact hsats (j + 1) v hj

namespace SatsAttained

variable {sats : List Int16} {done ways : List (Ways Nat)}

theorem next (h : SatsAttained sats done) {x : Ways Nat} (hx : Attained sat dsat x) :
    SatsAttained (nextSats sat dsat sats) (done ++ [x]) := by
  cases sats with
  | nil =>
    have hlength := h.length
    simp at hlength
  | cons first sats =>
    have hfirst : Attains first (Ways.choose 0 done) := h.entry 0 first rfl
    constructor
    · rw [length_nextSats (by simp), h.length, length_append, length_singleton]
    · intro j v hj
      cases j with
      | zero =>
        cases hj
        rw [Ways.choose_zero_concat]
        exact hfirst.add hx.dsat
      | succ j =>
        have hlength : 0 + sats.length = done.length := by
          have hall := h.length
          rw [length_cons] at hall
          omega
        rw [← Nat.zero_add (j + 1), Nat.add_comm j 1, ← Nat.add_assoc]
        refine nextSatsFrom_attained hx hlength hfirst (fun i u hi => ?_) j v hj
        rw [Nat.zero_add, Nat.add_comm 1 i]
        exact h.entry (i + 1) u hi

theorem foldl (h : SatsAttained sats done) (hall : Forall₂ (fun c w => Attained c.1 c.2 w) children ways) :
    SatsAttained (children.foldl (fun sats t => nextSats t.1 t.2 sats) sats) (done ++ ways) := by
  induction hall generalizing sats done with
  | nil => simpa using h
  | cons hx _ ih => simpa using ih (h.next hx)

theorem getD (h : SatsAttained sats ways) (hk : k ≤ ways.length) :
    Attains (sats.getD k 0) (Ways.choose k ways) := by
  have hlt : k < sats.length := by
    rw [h.length]
    omega
  apply h.entry
  rw [getD_eq_getElem?_getD, getElem?_eq_getElem hlt, Option.getD_some]

end SatsAttained

theorem threshSats_attained {ways : List (Ways Nat)}
    (hall : Forall₂ (fun c w => Attained c.1 c.2 w) children ways) :
    SatsAttained (threshSats children) ways := by
  have hinit : SatsAttained [0] [] := by
    refine ⟨rfl, fun j v hj => ?_⟩
    cases j with
    | zero =>
      cases hj
      exact .singleton (by decide)
    | succ j => simp at hj
  exact hinit.foldl hall

/-- A way costs the elements of its witness. What does not satisfy a hash is not a way. -/
def witnessCosts : Costs Nat where
  signature := 1
  noSignature := 1
  pubkey := 1
  preimage := 1
  wrongPreimage := ∅
  older _ := 0
  after _ := 0
  multiSat k _ := k + 1
  multiDsat k _ := k + 1
  multiASat _ n := n
  multiADsat _ n := n
  one := 1
  zero := 1

def witnessWays (node : PolicyNode) : Ways Nat := node.fold ⟨∅, ∅⟩ (Ways.ofFragment witnessCosts)

def StackAttained (info : PolicyNodeExtInfo) (ways : Ways Nat) : Prop :=
  Attained info.ss.sat info.ss.dsat ways

namespace StackAttained

theorem zero : Attains 0 0 := .singleton (Nat.zero_le _)

theorem one : Attains 1 {1} := .singleton (by decide)

theorem constantInfo (token : ConstantToken) :
    StackAttained (constantInfo token) (Ways.ofFragment witnessCosts token.fragment) := by
  cases token with
  | zero => exact ⟨.empty, zero⟩
  | one => exact ⟨zero, .empty⟩

theorem hashInfo (token : HashToken) :
    StackAttained (hashInfo token) (Ways.ofFragment witnessCosts .hash) := by
  cases token <;> exact ⟨one, .empty⟩

theorem uint32Info (n : UInt32) (token : Uint32Token) :
    StackAttained (uint32Info n token) (Ways.ofFragment witnessCosts (token.fragment n.toNat)) := by
  cases token <;> exact ⟨zero, .empty⟩

theorem keyInfo {token : KeyToken} (h : keyInfo ctx token = some info) (none : Ways Nat) :
    StackAttained info (token.fragment.elim none (Ways.ofFragment witnessCosts)) := by
  have two : Attains 2 {2} := .singleton (by decide)
  cases token with
  | wpkh => simp [LedgerBabylon.keyInfo] at h
  | pk | pkK =>
    cases h
    exact ⟨one, one⟩
  | pkh | pkH =>
    cases h
    exact ⟨two, two⟩

theorem multisigInfo {n : Nat} {token : MultisigToken}
    (h : multisigInfo k n token = some info) (hk : k ≤ n) (hn : n ≤ maxPubkeysPerMultisig)
    (none : Ways Nat) :
    StackAttained info ((token.fragment k n).elim none (Ways.ofFragment witnessCosts)) := by
  have hmax : maxPubkeysPerMultisig = 16 := rfl
  cases token with
  | sortedmulti | sortedmultiA => simp [LedgerBabylon.multisigInfo] at h
  | multi =>
    cases h
    exact ⟨.singleton (by omega), .singleton (by omega)⟩
  | multiA =>
    cases h
    exact ⟨.singleton (by omega), .singleton (by omega)⟩

variable {x y z : PolicyNodeExtInfo} {wx wy wz : Ways Nat}

theorem andorInfo (hx : StackAttained x wx) (hy : StackAttained y wy) (hz : StackAttained z wz) :
    StackAttained (andorInfo x y z) (Ways.ofFragment witnessCosts (.andor wx wy wz)) :=
  ⟨(hx.sat.add hy.sat).union (hx.dsat.add hz.sat), hx.dsat.add hz.dsat⟩

theorem script2Info (token : Script2Token) (hx : StackAttained x wx) (hy : StackAttained y wy) :
    StackAttained (script2Info token x y) (Ways.ofFragment witnessCosts (token.fragment wx wy)) := by
  have hselect {v : Int16} {s : Set Nat} (h : Attains v s) : Attains (sumcheck v 1) ({1} + s) := by
    rw [add_comm]
    exact h.add one
  cases token with
  | andV => exact ⟨hx.sat.add hy.sat, .empty⟩
  | andB => exact ⟨hx.sat.add hy.sat, hx.dsat.add hy.dsat⟩
  | andN =>
    constructor
    · show Attains _ ((wx.sat + wy.sat) ∪ (wx.dsat + ∅))
      rw [Set.add_empty, Set.union_empty]
      exact hx.sat.add hy.sat
    · show Attains _ (wx.dsat + 0)
      rw [add_zero]
      exact hx.dsat
  | orB =>
    refine ⟨?_, hx.dsat.add hy.dsat⟩
    show Attains _ ((wx.sat + wy.dsat) ∪ (wx.dsat + wy.sat))
    rw [Set.union_comm]
    exact (hx.dsat.add hy.sat).union (hx.sat.add hy.dsat)
  | orC => exact ⟨hx.sat.union (hx.dsat.add hy.sat), .empty⟩
  | orD => exact ⟨hx.sat.union (hx.dsat.add hy.sat), hx.dsat.add hy.dsat⟩
  | orI => exact ⟨(hselect hx.sat).union (hselect hy.sat), (hselect hx.dsat).union (hselect hy.dsat)⟩

theorem wrapperInfo (token : WrapperToken) (hx : StackAttained x wx) :
    StackAttained (wrapperInfo x token) (Ways.ofFragment witnessCosts (token.fragment wx)) := by
  have hsat : Attains (sumcheck x.ss.sat 1) ({1} + wx.sat) := by
    rw [add_comm]
    exact hx.sat.add one
  have hdsat : Attains (sumcheck x.ss.dsat 1) ({1} + wx.dsat) := by
    rw [add_comm]
    exact hx.dsat.add one
  cases token with
  | a | s | n | c => exact hx
  | d => exact ⟨one.add hx.sat, one⟩
  | v => exact ⟨hx.sat, .empty⟩
  | j => exact ⟨hx.sat, one⟩
  | t =>
    refine ⟨?_, .empty⟩
    show Attains _ (wx.sat + 0)
    rw [add_zero]
    exact hx.sat
  | l =>
    constructor
    · show Attains _ (({1} + ∅) ∪ ({1} + wx.sat))
      rw [Set.add_empty, Set.empty_union]
      exact hsat
    · show Attains _ (({1} + 0) ∪ ({1} + wx.dsat))
      rw [add_zero]
      exact one.union hdsat
  | u =>
    constructor
    · show Attains _ (({1} + wx.sat) ∪ ({1} + ∅))
      rw [Set.add_empty, Set.union_empty]
      exact hsat
    · show Attains _ (({1} + wx.dsat) ∪ ({1} + 0))
      rw [add_zero, Set.union_comm]
      exact one.union hdsat

theorem threshInfo {xs : List PolicyNodeExtInfo}
    (h : threshInfo overread k xs = some info) (hk : k ≤ xs.length)
    {ways : List (Ways Nat)} (hxs : Forall₂ StackAttained xs ways) :
    StackAttained info (Ways.ofFragment witnessCosts (.thresh k ways)) := by
  simp only [LedgerBabylon.threshInfo, Option.ite_none_left_eq_some, Option.some.injEq] at h
  obtain ⟨hn, rfl⟩ := h
  have hsats : SatsAttained (threshSats (xs.map fun t => (t.ss.sat, t.ss.dsat))) ways :=
    threshSats_attained (forall₂_map_left_iff.mpr hxs)
  have hread : k < maxNInThresh + 2 := by omega
  constructor
  · show Attains (readSats overread _ k) _
    rw [readSats, if_pos hread]
    exact hsats.getD (hxs.length_eq ▸ hk)
  · exact hsats.getD (Nat.zero_le _)

end StackAttained

def WithinLimits : PolicyNode → Prop
  | .thresh _ k xs => k ≤ xs.length ∧ xs.length ≤ maxNInThresh
  | .multisig _ _ k keys => k ≤ keys.length ∧ keys.length ≤ maxPubkeysPerMultisig
  | _ => True

variable {node : PolicyNode}

theorem HasExtInfo.stackAttained (h : HasExtInfo overread ctx node info)
    (hlimits : node.AllNodes WithinLimits) : StackAttained info (witnessWays node) := by
  induction h with
  | constant => exact .constantInfo _
  | withHash => exact .hashInfo _
  | withKey h => exact .keyInfo h _
  | withUint32 => exact .uint32Info _ _
  | multisig h => exact .multisigInfo h hlimits.self.1 hlimits.self.2 _
  | andor _ _ _ ihx ihy ihz =>
    obtain ⟨hx, hy, hz⟩ := hlimits.andor
    exact .andorInfo (ihx hx) (ihy hy) (ihz hz)
  | withScript2 _ _ ihx ihy =>
    obtain ⟨hx, hy⟩ := hlimits.withScript2
    exact .script2Info _ (ihx hx) (ihy hy)
  | @thresh _ k xs infos info hlen _ h ih =>
    have hk : k ≤ xs.length := hlimits.self.1
    rw [witnessWays, fold, foldList_eq_map]
    refine .threshInfo h (hlen ▸ hk) ?_
    exact forall₂_map_of_zip hlen fun p hp => ih p hp (hlimits.child (of_mem_zip hp).1)
  | wrapper _ ih => exact .wrapperInfo _ (ih hlimits.wrapper)

theorem exists_computeExtInfos {xs : List PolicyNode}
    (h : ∀ x ∈ xs, ∃ info, computeMiniscriptPolicyExtInfo overread ctx x = some info) :
    ∃ infos, computeExtInfos overread ctx xs = some infos := by
  induction xs with
  | nil => exact ⟨[], rfl⟩
  | cons x xs ih =>
    obtain ⟨⟨info, hinfo⟩, hxs⟩ := forall_mem_cons.mp h
    obtain ⟨infos, hinfos⟩ := ih hxs
    rw [computeExtInfos, hinfo, hinfos]
    exact ⟨info :: infos, rfl⟩

theorem Accepted.exists_extInfo (h : Accepted isTaproot node)
    (hmini : node.isMiniscript) (hlimits : node.AllNodes WithinLimits) (overread : Nat → Int16)
    (ctx : Context) : ∃ info, computeMiniscriptPolicyExtInfo overread ctx node = some info := by
  have hsome {x : PolicyNode} {flags : Typ} (h : x.flags = some flags) : x.isMiniscript := by
    rw [isMiniscript, h, Option.isSome_some]
  induction h with
  | sh | wsh | tr => simp [isMiniscript, flags] at hmini
  | constant | withHash | withUint32 =>
    rw [computeMiniscriptPolicyExtInfo, if_pos hmini]
    exact ⟨_, rfl⟩
  | @withKey _ token key =>
    rw [computeMiniscriptPolicyExtInfo, if_pos hmini]
    cases token with
    | wpkh => simp [isMiniscript, flags, keyFlags] at hmini
    | pk | pkh | pkK | pkH => exact ⟨_, rfl⟩
  | @multisig _ token k keys =>
    rw [computeMiniscriptPolicyExtInfo, if_pos hmini]
    cases token with
    | sortedmulti | sortedmultiA =>
      simp [isMiniscript, flags, multisigFlags] at hmini
    | multi | multiA => exact ⟨_, rfl⟩
  | andor _ _ _ hfx hfy hfz _ ihx ihy ihz =>
    obtain ⟨hlx, hly, hlz⟩ := hlimits.andor
    obtain ⟨ix, hx⟩ := ihx (hsome hfx) hlx
    obtain ⟨iy, hy⟩ := ihy (hsome hfy) hly
    obtain ⟨iz, hz⟩ := ihz (hsome hfz) hlz
    rw [computeMiniscriptPolicyExtInfo, if_pos hmini, hx, hy, hz]
    exact ⟨_, rfl⟩
  | withScript2 _ _ hfx hfy _ ihx ihy =>
    obtain ⟨hlx, hly⟩ := hlimits.withScript2
    obtain ⟨ix, hx⟩ := ihx (hsome hfx) hlx
    obtain ⟨iy, hy⟩ := ihy (hsome hfy) hly
    rw [computeMiniscriptPolicyExtInfo, if_pos hmini, hx, hy]
    exact ⟨_, rfl⟩
  | @thresh _ k xs fs _ _ hflags _ _ _ ih =>
    have hall : ∀ x ∈ xs, ∃ info, computeMiniscriptPolicyExtInfo overread ctx x = some info := by
      intro x hx
      have hmem : x.flags ∈ fs.map some := hflags ▸ mem_map_of_mem hx
      obtain ⟨f, -, hf⟩ := mem_map.mp hmem
      exact ih x hx (hsome hf.symm) (hlimits.child hx)
    obtain ⟨infos, hinfos⟩ := exists_computeExtInfos hall
    have hn : xs.length ≤ maxNInThresh := hlimits.self.2
    rw [(computeExtInfos_zip hinfos).1] at hn
    rw [computeMiniscriptPolicyExtInfo, if_pos hmini, hinfos]
    exact ⟨_, if_neg (Nat.not_lt.mpr hn)⟩
  | wrapper _ hfx _ ih =>
    obtain ⟨ix, hx⟩ := ih (hsome hfx) hlimits.wrapper
    rw [computeMiniscriptPolicyExtInfo, if_pos hmini, hx]
    exact ⟨_, rfl⟩

def Takes (n : Nat) (f : Nat → Nat) : Prop := ∀ a, a + n ≤ f a

namespace Takes

variable {m n : Nat} {f g : Nat → Nat}

theorem mono (h : Takes n f) (hm : m ≤ n) : Takes m f := fun a => (Nat.add_le_add_left hm a).trans (h a)

theorem comp (hf : Takes m f) (hg : Takes n g) : Takes (m + n) fun a => g (f a) := by
  intro a
  have hfirst := hf a
  have hsecond := hg (f a)
  show a + (m + n) ≤ g (f a)
  omega

theorem congr (h : Takes n f) (hg : ∀ a, g a = f a) : Takes n g := by
  intro a
  rw [hg]
  exact h a

theorem before (hg : Takes n g) (hf : Takes m f) : Takes n fun a => g (f a) :=
  (hf.comp hg).mono (Nat.le_add_left _ _)

theorem after (hf : Takes m f) (hg : Takes n g) : Takes m fun a => g (f a) :=
  (hf.comp hg).mono (Nat.le_add_right _ _)

theorem struct (env : ParseEnv) (kind : PolicyStruct) : Takes (env.sizeof kind) (env.after kind) :=
  fun _ => Nat.add_le_add_right (Nat.le_add_right _ _) _

theorem aligned (env : ParseEnv) : Takes 0 env.aligned := by
  intro a
  unfold ParseEnv.aligned
  split_ifs
  · exact Nat.le_add_right _ _
  · exact le_rfl

theorem child (env : ParseEnv) (kind : PolicyStruct) :
    Takes (env.sizeof kind) fun a => env.aligned (env.after kind a) :=
  (struct env kind).after (aligned env)

end Takes

section

variable (version : Nat)

variable {xs : List PolicyNode} {tree : PolicyTree PolicyNode}

theorem KeyExpr.takes (key : KeyExpr) : Takes 16 (key.layout (.device version)) := by
  have hrecord : Takes 16 _ := Takes.struct (.device version) .keyexpr
  obtain ⟨numFirst, numSecond, type, keyexprIndex⟩ := key
  cases type with
  | normal | unreadable => exact hrecord
  | musig keyIndexes =>
    have hindexes : Takes 0 fun a => padded a + 2 * keyIndexes.length := fun a =>
      (Nat.le_add_right _ _).trans (Nat.le_add_right _ _)
    exact (hrecord.after (Takes.struct (.device version) .pointer)).after hindexes

theorem keysLayout_takes (keys : List KeyExpr) :
    Takes (16 * keys.length) (keysLayout (.device version) keys) := by
  induction keys with
  | nil => exact fun a => le_rfl
  | cons key keys ih =>
    refine ((key.takes version).comp ih).mono ?_
    rw [length_cons]
    omega

theorem scriptsLayout_takes (h : ∀ x ∈ xs, Takes 8 (x.layout (.device version))) :
    Takes (12 * xs.length) (scriptsLayout (.device version) xs) := by
  induction xs with
  | nil => exact fun a => le_rfl
  | cons x xs ih =>
    obtain ⟨hx, hxs⟩ := forall_mem_cons.mp h
    have hfirst : Takes (4 + 8) _ := (Takes.child (.device version) .scriptlist).comp hx
    refine ((hfirst.comp (ih hxs)).congr fun a => by rw [scriptsLayout]).mono ?_
    rw [length_cons]
    omega

theorem treeLayout_takes (h : ∀ x ∈ tree.leaves, Takes 8 (x.layout (.device version))) :
    Takes 8 (treeLayout (.device version) tree) := by
  have hstart := Takes.child (.device version) .tree
  induction tree with
  | leaf x =>
    have hleaf := h x (by simp [PolicyTree.leaves])
    exact (hleaf.before hstart).congr fun a => by rw [treeLayout]
  | branch l r ihl ihr =>
    obtain ⟨hl, hr⟩ := forall_mem_append.mp h
    have hfirst := ((ihl hl).before hstart).after (Takes.aligned (.device version))
    exact (hfirst.after (ihr hr)).congr fun a => by rw [treeLayout]

theorem PolicyNode.takes (node : PolicyNode) : Takes 8 (node.layout (.device version)) := by
  have hchild (kind : PolicyStruct) := Takes.child (.device version) kind
  have hstruct (kind : PolicyStruct) := Takes.struct (.device version) kind
  have halign := Takes.aligned (.device version)
  induction node using induction with
  | constant => exact (hstruct .nodeConstant).congr fun a => by rw [layout]
  | withHash flags token h =>
    have hsize : 8 ≤ (ParseEnv.device version).sizeof (hashStruct token) := by
      cases token <;> exact Nat.le_of_ble_eq_true rfl
    exact ((hstruct (hashStruct token)).mono hsize).congr fun a => by rw [layout]
  | withUint32 =>
    have hnode : Takes 12 _ := hstruct .nodeWithUint32
    exact (hnode.mono (by decide)).congr fun a => by rw [layout]
  | withKey flags token key =>
    have hkey := (key.takes version).before (hstruct .nodeWithKey)
    exact (hkey.mono (by decide)).congr fun a => by rw [layout]
  | tr key tree ih =>
    have hkey := ((key.takes version).before (hstruct .nodeTr)).mono (by decide : 8 ≤ 16)
    cases tree with
    | none => exact hkey.congr fun a => by rw [layout, trLayout]
    | some tree =>
      have htree := (hkey.after halign).after (treeLayout_takes version (ih tree rfl))
      exact htree.congr fun a => by rw [layout, trLayout]
  | multisig flags token k keys =>
    have hkeys : Takes 16 _ := (hchild .nodeMultisig).after (keysLayout_takes version keys)
    exact (hkeys.mono (by decide)).congr fun a => by rw [layout]
  | sh x ih | wsh x ih => exact (ih.before (hchild .nodeWithScript)).congr fun a => by rw [layout]
  | wrapper flags token x ih => exact (ih.before (hstruct .nodeWithScript)).congr fun a => by rw [layout]
  | withScript2 flags token x y hx hy =>
    have hfirst := (hx.before (hchild .nodeWithScript2)).after halign
    exact (hy.before hfirst).congr fun a => by rw [layout]
  | andor flags x y z hx hy hz =>
    have hfirst := (hx.before (hchild .nodeWithScript3)).after halign
    have hsecond := (hy.before hfirst).after halign
    exact (hz.before hsecond).congr fun a => by rw [layout]
  | thresh flags k xs ih =>
    have hnode : Takes 16 _ := (hstruct .nodeThresh).after (scriptsLayout_takes version ih)
    exact (hnode.mono (by decide)).congr fun a => by rw [layout]

theorem Takes.of_mem_scripts {n : Nat} {x : PolicyNode} (hx : x ∈ xs)
    (h : Takes n (x.layout (.device version))) : Takes n (scriptsLayout (.device version) xs) := by
  induction xs with
  | nil => cases hx
  | cons y ys ih =>
    have hstart := Takes.child (.device version) .scriptlist
    rcases mem_cons.mp hx with rfl | hx
    · have hrest := @scriptsLayout_takes version ys fun y _ => y.takes version
      exact ((h.before hstart).after hrest).congr fun a => by rw [scriptsLayout]
    · have hfirst := (y.takes version).before hstart
      exact ((ih hx).before hfirst).congr fun a => by rw [scriptsLayout]

theorem Takes.of_mem_leaves {n : Nat} {x : PolicyNode} (hx : x ∈ tree.leaves)
    (h : Takes n (x.layout (.device version))) : Takes n (treeLayout (.device version) tree) := by
  have hstart := Takes.child (.device version) .tree
  have halign := Takes.aligned (.device version)
  have htakes (tree : PolicyTree PolicyNode) := @treeLayout_takes version tree fun y _ =>
    y.takes version
  induction tree with
  | leaf y =>
    obtain rfl := mem_singleton.mp hx
    exact (h.before hstart).congr fun a => by rw [treeLayout]
  | branch l r ihl ihr =>
    rcases mem_append.mp hx with hx | hx
    · have hleft := (((ihl hx).before hstart).after halign).after (htakes r)
      exact hleft.congr fun a => by rw [treeLayout]
    · have hleft := ((htakes l).before hstart).after halign
      exact ((ihr hx).before hleft).congr fun a => by rw [treeLayout]

theorem Takes.of_subnode {n : Nat} {c : Bool × PolicyNode}
    (hc : c ∈ node.subnodes isTaproot) (h : Takes n (c.2.layout (.device version))) :
    Takes n (node.layout (.device version)) := by
  have hchild (kind : PolicyStruct) := Takes.child (.device version) kind
  have hstruct (kind : PolicyStruct) := Takes.struct (.device version) kind
  have halign := Takes.aligned (.device version)
  induction node using induction generalizing isTaproot with
  | constant | withHash | withUint32 | withKey | multisig =>
    obtain rfl := mem_singleton.mp hc
    exact h
  | tr key tree ih =>
    rcases mem_cons.mp hc with rfl | hc
    · exact h
    have hkey := (key.takes version).before (hstruct .nodeTr)
    cases tree with
    | none => cases hc
    | some tree =>
      obtain ⟨x, hx, hc⟩ := mem_subnodesTree.mp hc
      have htree := Takes.of_mem_leaves version hx (ih tree rfl x hx hc)
      exact (htree.before (hkey.after halign)).congr fun a => by rw [layout, trLayout]
  | sh x ih | wsh x ih =>
    rcases mem_cons.mp hc with rfl | hc
    · exact h
    · exact ((ih hc).before (hchild .nodeWithScript)).congr fun a => by rw [layout]
  | wrapper flags token x ih =>
    rcases mem_cons.mp hc with rfl | hc
    · exact h
    · exact ((ih hc).before (hstruct .nodeWithScript)).congr fun a => by rw [layout]
  | withScript2 flags token x y hx hy =>
    rcases mem_cons.mp hc with rfl | hc
    · exact h
    rcases mem_append.mp hc with hc | hc
    · have hfirst := ((hx hc).before (hchild .nodeWithScript2)).after halign
      exact (hfirst.after (y.takes version)).congr fun a => by rw [layout]
    · have hfirst := ((x.takes version).before (hchild .nodeWithScript2)).after halign
      exact ((hy hc).before hfirst).congr fun a => by rw [layout]
  | andor flags x y z hx hy hz =>
    rcases mem_cons.mp hc with rfl | hc
    · exact h
    have hfirst := ((x.takes version).before (hchild .nodeWithScript3)).after halign
    rcases mem_append.mp hc with hc | hc
    · rcases mem_append.mp hc with hc | hc
      · have hfirst := ((hx hc).before (hchild .nodeWithScript3)).after halign
        have hsecond := (hfirst.after (y.takes version)).after halign
        exact (hsecond.after (z.takes version)).congr fun a => by rw [layout]
      · have hsecond := ((hy hc).before hfirst).after halign
        exact (hsecond.after (z.takes version)).congr fun a => by rw [layout]
    · have hsecond := ((y.takes version).before hfirst).after halign
      exact ((hz hc).before hsecond).congr fun a => by rw [layout]
  | thresh flags k xs ih =>
    rcases mem_cons.mp hc with rfl | hc
    · exact h
    obtain ⟨x, hx, hc⟩ := mem_subnodesList.mp hc
    have hxs := Takes.of_mem_scripts version hx (ih x hx hc)
    exact (hxs.before (hstruct .nodeThresh)).congr fun a => by rw [layout]

structure BoundedBy (ways : Ways Nat) (n : Nat) : Prop where
  sat : ∀ c ∈ ways.sat, c ≤ n
  dsat : ∀ c ∈ ways.dsat, c ≤ n

namespace BoundedBy

variable {wx wy wz : Ways Nat} {m n : Nat}

theorem mono (h : BoundedBy wx m) (hmn : m ≤ n) : BoundedBy wx n :=
  ⟨fun c hc => (h.sat c hc).trans hmn, fun c hc => (h.dsat c hc).trans hmn⟩

theorem script2 (token : Script2Token) (hx : BoundedBy wx m) (hy : BoundedBy wy n) :
    BoundedBy (Ways.ofFragment witnessCosts (token.fragment wx wy)) (1 + m + n) := by
  obtain ⟨hxs, hxd⟩ := hx
  obtain ⟨hys, hyd⟩ := hy
  cases token <;> constructor <;> intro c hc <;>
    simp only [Script2Token.fragment, Ways.ofFragment, Ways.andV, Ways.andor, Ways.orI, Ways.zero,
      witnessCosts, Set.mem_union, Set.mem_add, Set.mem_singleton_iff, Set.mem_empty_iff_false,
      Set.mem_zero] at hc <;>
    grind

theorem wrapper (token : WrapperToken) (hx : BoundedBy wx m) :
    BoundedBy (Ways.ofFragment witnessCosts (token.fragment wx)) (1 + m) := by
  obtain ⟨hxs, hxd⟩ := hx
  cases token <;> constructor <;> intro c hc <;>
    simp only [WrapperToken.fragment, Ways.ofFragment, Ways.andV, Ways.orI, Ways.zero, Ways.one,
      witnessCosts, Set.mem_union, Set.mem_add, Set.mem_singleton_iff, Set.mem_empty_iff_false,
      Set.mem_zero] at hc <;>
    grind

theorem andor (hx : BoundedBy wx k) (hy : BoundedBy wy m) (hz : BoundedBy wz n) :
    BoundedBy (Ways.ofFragment witnessCosts (.andor wx wy wz)) (k + m + n) := by
  obtain ⟨hxs, hxd⟩ := hx
  obtain ⟨hys, hyd⟩ := hy
  obtain ⟨hzs, hzd⟩ := hz
  constructor <;> intro c hc <;>
    simp only [Ways.ofFragment, Ways.andor, Set.mem_union, Set.mem_add] at hc <;>
    grind

theorem choose_cons {ways : List (Ways Nat)} (hx : BoundedBy wx m)
    (h : ∀ j, ∀ c ∈ Ways.choose j ways, c ≤ n) : ∀ j, ∀ c ∈ Ways.choose j (wx :: ways), c ≤ m + n := by
  intro j c hc
  cases j with
  | zero =>
    obtain ⟨p, hp, q, hq, rfl⟩ := hc
    exact Nat.add_le_add (hx.dsat p hp) (h 0 q hq)
  | succ j =>
    rcases hc with ⟨p, hp, q, hq, rfl⟩ | ⟨p, hp, q, hq, rfl⟩
    · exact Nat.add_le_add (hx.sat p hp) (h j q hq)
    · exact Nat.add_le_add (hx.dsat p hp) (h (j + 1) q hq)

theorem key (token : KeyToken) : BoundedBy (token.fragment.elim ⟨∅, ∅⟩ (Ways.ofFragment witnessCosts)) 2 := by
  cases token <;> constructor <;> intro c hc <;>
    simp only [KeyToken.fragment, Option.elim, Ways.ofFragment, Ways.pkK, Ways.pkH, witnessCosts,
      Set.mem_singleton_iff, Set.mem_empty_iff_false] at hc <;>
    omega

theorem multisig (token : MultisigToken) (hmn : m ≤ n) :
    BoundedBy ((token.fragment m n).elim ⟨∅, ∅⟩ (Ways.ofFragment witnessCosts)) (n + 1) := by
  cases token <;> constructor <;> intro c hc <;>
    simp only [MultisigToken.fragment, Option.elim, Ways.ofFragment, witnessCosts, Set.mem_singleton_iff,
      Set.mem_empty_iff_false] at hc <;>
    omega

theorem constant (token : ConstantToken) : BoundedBy (Ways.ofFragment witnessCosts token.fragment) 1 := by
  cases token <;> constructor <;> intro c hc <;>
    simp only [ConstantToken.fragment, Ways.ofFragment, Ways.zero, Ways.one, Set.mem_zero,
      Set.mem_empty_iff_false] at hc <;>
    omega

theorem uint32 (token : Uint32Token) (n : Nat) :
    BoundedBy (Ways.ofFragment witnessCosts (token.fragment n)) 1 := by
  cases token <;> constructor <;> intro c hc <;>
    simp only [Uint32Token.fragment, Ways.ofFragment, witnessCosts, Set.mem_singleton_iff,
      Set.mem_empty_iff_false] at hc <;>
    omega

theorem hash : BoundedBy (Ways.ofFragment witnessCosts .hash) 1 := by
  constructor
  · intro c hc
    obtain rfl : c = 1 := hc
    exact le_rfl
  · intro c hc
    exact hc.elim

theorem none (n : Nat) : BoundedBy ⟨∅, ∅⟩ n := ⟨fun _ hc => hc.elim, fun _ hc => hc.elim⟩

end BoundedBy

theorem add_le_child (kind : PolicyStruct) (a : Nat) : a + (ParseEnv.device version).sizeof kind ≤
      (ParseEnv.device version).aligned ((ParseEnv.device version).after kind a) :=
  Takes.child (.device version) kind a

theorem choose_bounded
    (h : ∀ x ∈ xs, ∀ a, BoundedBy (witnessWays x) (x.layout (.device version) a - a)) (a : Nat) :
    ∀ j, ∀ c ∈ Ways.choose j (xs.map witnessWays), c ≤ scriptsLayout (.device version) xs a - a := by
  induction xs generalizing a with
  | nil =>
    intro j c hc
    cases j with
    | zero =>
      obtain rfl : c = 0 := hc
      exact Nat.zero_le _
    | succ j => exact hc.elim
  | cons x xs ih =>
    obtain ⟨hx, hxs⟩ := forall_mem_cons.mp h
    have hstart : a + 4 ≤ _ := add_le_child version .scriptlist a
    rw [scriptsLayout]
    generalize (ParseEnv.device version).aligned ((ParseEnv.device version).after .scriptlist a) = b
      at hstart ⊢
    have htakes := x.takes version b
    have hrest := @scriptsLayout_takes version xs (fun y _ => y.takes version) (x.layout (.device version) b)
    intro j c hc
    have hbound := BoundedBy.choose_cons (hx b) (ih hxs (x.layout (.device version) b)) j c hc
    omega

theorem witnessWays_bounded (hlimits : node.AllNodes WithinLimits) (a : Nat) :
    BoundedBy (witnessWays node) (node.layout (.device version) a - a) := by
  have hstruct (kind : PolicyStruct) := Takes.struct (.device version) kind
  have halign := Takes.aligned (.device version)
  induction node using induction generalizing a with
  | sh | wsh | tr => exact .none _
  | constant flags token =>
    have htakes := (constant flags token).takes version a
    exact (BoundedBy.constant token).mono (by omega)
  | withHash flags token h =>
    have htakes := (withHash flags token h).takes version a
    exact BoundedBy.hash.mono (by omega)
  | withKey flags token key =>
    have htakes := (withKey flags token key).takes version a
    exact (BoundedBy.key token).mono (by omega)
  | withUint32 flags token n =>
    have htakes := (withUint32 flags token n).takes version a
    exact (BoundedBy.uint32 token n.toNat).mono (by omega)
  | multisig flags token k keys =>
    have htakes : a + (16 + 16 * keys.length) ≤ keysLayout (.device version) keys _ :=
      (Takes.child (.device version) .nodeMultisig).comp (keysLayout_takes version keys) a
    rw [layout]
    exact (BoundedBy.multisig token hlimits.self.1).mono (by omega)
  | wrapper flags token x ih =>
    have hstart : a + 12 ≤ _ := hstruct .nodeWithScript a
    have htakes := x.takes version ((ParseEnv.device version).after .nodeWithScript a)
    rw [layout]
    have hx := ih hlimits.wrapper ((ParseEnv.device version).after .nodeWithScript a)
    exact (hx.wrapper token).mono (by omega)
  | withScript2 flags token x y ihx ihy =>
    have hstart : a + 12 ≤ _ := add_le_child version .nodeWithScript2 a
    rw [layout]
    generalize (ParseEnv.device version).aligned ((ParseEnv.device version).after .nodeWithScript2 a) = b
      at hstart ⊢
    have htakes := x.takes version b
    have hnext := halign (x.layout (.device version) b)
    generalize (ParseEnv.device version).aligned (x.layout (.device version) b) = c at hnext ⊢
    have htakes' := y.takes version c
    obtain ⟨hlx, hly⟩ := hlimits.withScript2
    exact ((ihx hlx b).script2 token (ihy hly c)).mono (by omega)
  | andor flags x y z ihx ihy ihz =>
    have hstart : a + 16 ≤ _ := add_le_child version .nodeWithScript3 a
    rw [layout]
    generalize (ParseEnv.device version).aligned ((ParseEnv.device version).after .nodeWithScript3 a) = b
      at hstart ⊢
    have htakes := x.takes version b
    have hnext := halign (x.layout (.device version) b)
    generalize (ParseEnv.device version).aligned (x.layout (.device version) b) = c at hnext ⊢
    have htakes' := y.takes version c
    have hnext' := halign (y.layout (.device version) c)
    generalize (ParseEnv.device version).aligned (y.layout (.device version) c) = d at hnext' ⊢
    have htakes'' := z.takes version d
    obtain ⟨hlx, hly, hlz⟩ := hlimits.andor
    exact ((ihx hlx b).andor (ihy hly c) (ihz hlz d)).mono (by omega)
  | thresh flags k xs ih =>
    have hstart : a + 16 ≤ _ := hstruct .nodeThresh a
    have hxs (x : PolicyNode) (hx : x ∈ xs) := ih x hx (hlimits.child hx)
    rw [layout, witnessWays, fold, foldList_eq_map]
    generalize (ParseEnv.device version).after .nodeThresh a = b at hstart ⊢
    have hbound := choose_bounded version hxs b
    exact ⟨fun c hc => (hbound k c hc).trans (by omega), fun c hc => (hbound 0 c hc).trans (by omega)⟩

end

def IsLargest (v : Int16) (costs : Set Nat) : Prop :=
  (costs = ∅ ∧ v = -1) ∨ ∃ m : Nat, IsGreatest costs m ∧ v.toInt = m

theorem Attains.isLargest {v : Int16} {costs : Set Nat} (h : Attains v costs)
    (hbound : ∀ c ∈ costs, c ≤ 32767) : IsLargest v costs := by
  rcases h with h | ⟨m, hm, hv⟩
  · exact .inl h
  · have hle := hbound m hm.1
    exact .inr ⟨m, hm, by omega⟩

theorem Accepted.withinLimits {version : Nat}
    (h : Accepted isTaproot node) (hfit : ∀ n, Takes n (node.layout (.device version)) → n ≤ 896)
    (hwithin : ThreshWithinChildren node) : WithinLimits node := by
  cases h with
  | multisig _ _ hk hn => exact ⟨hk, hn⟩
  | @thresh _ k xs =>
    refine ⟨hwithin, ?_⟩
    have hxs := @scriptsLayout_takes version xs fun x _ => x.takes version
    have hnode := hfit _ ((hxs.before (Takes.struct (.device version) .nodeThresh)).congr fun a => by
      rw [layout])
    show xs.length ≤ 128
    omega
  | _ => trivial

/-- **The stack sizes are exact.** For every miniscript expression of an accepted template in which no
threshold is above the number of children, they are those of the largest witnesses. -/
theorem witnessSizes_exact {version : Nat} {template : Bytes} {root : PolicyNode}
    (h : parseDescriptorTemplate (.device version) template = some root) {isTaproot : Bool}
    {script : PolicyNode} (hscript : (isTaproot, script) ∈ root.subnodes false)
    (hmini : script.isMiniscript) (hwithin : script.AllNodes ThreshWithinChildren)
    (overread : Nat → Int16) (ctx : Context) :
    ∃ info, computeMiniscriptPolicyExtInfo overread ctx script = some info ∧
      IsLargest info.ss.sat (witnessWays script).sat ∧
      IsLargest info.ss.dsat (witnessWays script).dsat := by
  have haccepted := (parseDescriptorTemplate_accepted h).subnode hscript
  have hfit (n : Nat) (hn : Takes n (script.layout (.device version))) : n ≤ 896 := by
    have hroot := Takes.of_subnode version hscript hn 0
    have hbuffer : root.layout (.device version) 0 ≤ 896 :=
      (parseDescriptorTemplate_text (by decide : 32 ≤ 32) h).2
    omega
  have hall : script.AllNodes fun node => ThreshWithinChildren node → WithinLimits node :=
    .of_subnodes fun c hc => (haccepted.subnode hc).withinLimits fun n hn =>
      hfit n (Takes.of_subnode version hc hn)
  have hlimits : script.AllNodes WithinLimits := fun c hc => hall c hc (hwithin c hc)
  obtain ⟨info, hinfo⟩ := haccepted.exists_extInfo hmini hlimits overread ctx
  have hattained := (hasExtInfo_of_compute hinfo).stackAttained hlimits
  have hbounded (a : Nat) := witnessWays_bounded version hlimits a
  have hsmall {c : Nat} (hc : ∀ a, c ≤ script.layout (.device version) a - a) : c ≤ 32767 := by
    have htakes : Takes c (script.layout (.device version)) := by
      intro a
      have hle := hc a
      have hnode := script.takes version a
      omega
    have hle := hfit c htakes
    omega
  exact ⟨info, hinfo, hattained.sat.isLargest fun c hc => hsmall fun a => (hbounded a).sat c hc,
    hattained.dsat.isLargest fun c hc => hsmall fun a => (hbounded a).dsat c hc⟩

/-- A threshold of two with a lock among its children. -/
theorem witnessSizes_exact_locked : ∃ root, parseDescriptorTemplate (.device 2) lockedTemplate = some root ∧
      ∃ c ∈ root.subnodes false, c.2.threshChildren ≠ [] ∧
        ∃ info, computeMiniscriptPolicyExtInfo (fun _ => 0) .p2wsh c.2 = some info ∧
          IsLargest info.ss.sat (witnessWays c.2).sat ∧ IsLargest info.ss.dsat (witnessWays c.2).dsat := by
  have hrun : ((parseDescriptorTemplate (.device 2) lockedTemplate).any fun root =>
      (root.subnodes false).any fun c => c.2.isMiniscript && decide (c.2.threshChildren ≠ [])
        && decide (c.2.AllNodes ThreshWithinChildren)) := by
    decide +kernel
  obtain ⟨root, hroot, c, hc, hcheck⟩ := exists_subnode_of_any hrun
  simp only [Bool.and_eq_true, decide_eq_true_eq] at hcheck
  obtain ⟨⟨hmini, hne⟩, hwithin⟩ := hcheck
  exact ⟨root, hroot, c, hc, hne, witnessSizes_exact hroot hc hmini hwithin (fun _ => 0) .p2wsh⟩

end LedgerBabylon
