import LedgerBabylon.Common.MiniscriptInfo
import LedgerBabylon.Common.PolicyTyping
import Mathlib.Data.List.Forall2

/-!
# What sane miniscript guarantees

The attributes of the device are compared with the tables of miniscript, by induction over the
expression. Thresholds are the exception in both results: whether the children of a `thresh` are
malleable is not looked at, and a `thresh` of more than all its children is read as satisfiable.
-/

namespace LedgerBabylon

open PolicyNode Miniscript Exec List

variable {n j : Nat} {token : KeyToken} {v : Int16} {done : List Paths} {children : List (Int16 × Int16)}
  {xs : List PolicyNodeExtInfo} {k : Nat} {txs : List Mal} {sat dsat : Int16} {sats : List Int16}

inductive HasExtInfo (overread : Nat → Int16) (ctx : Context) : PolicyNode → PolicyNodeExtInfo → Prop
  | constant {flags : Typ} {token : ConstantToken} :
      HasExtInfo overread ctx (.constant (some flags) token) (constantInfo token)
  | withHash {flags : Typ} {token : HashToken} {h : Bytes} :
      HasExtInfo overread ctx (.withHash (some flags) token h) (hashInfo token)
  | withKey {flags : Typ} {token : KeyToken} {key : KeyExpr} {info : PolicyNodeExtInfo} :
      keyInfo ctx token = some info → HasExtInfo overread ctx (.withKey (some flags) token key) info
  | withUint32 {flags : Typ} {token : Uint32Token} {n : UInt32} :
      HasExtInfo overread ctx (.withUint32 (some flags) token n) (uint32Info n token)
  | multisig {flags : Typ} {token : MultisigToken} {k : Nat} {keys : List KeyExpr}
      {info : PolicyNodeExtInfo} : multisigInfo k keys.length token = some info →
      HasExtInfo overread ctx (.multisig (some flags) token k keys) info
  | andor {flags : Typ} {x y z : PolicyNode} {ix iy iz : PolicyNodeExtInfo} :
      HasExtInfo overread ctx x ix → HasExtInfo overread ctx y iy → HasExtInfo overread ctx z iz →
      HasExtInfo overread ctx (.andor (some flags) x y z) (andorInfo ix iy iz)
  | withScript2 {flags : Typ} {token : Script2Token} {x y : PolicyNode} {ix iy : PolicyNodeExtInfo} :
      HasExtInfo overread ctx x ix → HasExtInfo overread ctx y iy →
      HasExtInfo overread ctx (.withScript2 (some flags) token x y) (script2Info token ix iy)
  | thresh {flags : Typ} {k : Nat} {xs : List PolicyNode} {infos : List PolicyNodeExtInfo}
      {info : PolicyNodeExtInfo} : xs.length = infos.length →
      (∀ p ∈ xs.zip infos, HasExtInfo overread ctx p.1 p.2) → threshInfo overread k infos = some info →
      HasExtInfo overread ctx (.thresh (some flags) k xs) info
  | wrapper {flags : Typ} {token : WrapperToken} {x : PolicyNode} {ix : PolicyNodeExtInfo} :
      HasExtInfo overread ctx x ix →
      HasExtInfo overread ctx (.wrapper (some flags) token x) (wrapperInfo ix token)

section

variable {overread : Nat → Int16} {ctx : Context} {node : PolicyNode} {info : PolicyNodeExtInfo}

theorem forall₂_map_of_zip {α β γ : Type} {R : β → γ → Prop} {f : α → γ} {xs : List α} {ys : List β}
    (hlen : xs.length = ys.length) (h : ∀ p ∈ xs.zip ys, R p.2 (f p.1)) : List.Forall₂ R ys (xs.map f) := by
  rw [forall₂_map_right_iff]
  exact (forall₂_iff_zip.mpr ⟨hlen, h _⟩ : List.Forall₂ (fun x y => R y (f x)) xs ys).flip

theorem computeExtInfos_zip {xs : List PolicyNode} {infos : List PolicyNodeExtInfo}
    (h : computeExtInfos overread ctx xs = some infos) :
    xs.length = infos.length
      ∧ ∀ p ∈ xs.zip infos, computeMiniscriptPolicyExtInfo overread ctx p.1 = some p.2 := by
  induction xs generalizing infos with
  | nil =>
    cases h
    simp
  | cons x xs ih =>
    simp only [computeExtInfos, Option.bind_eq_bind, Option.bind_eq_some_iff, Option.pure_def,
      Option.some.injEq] at h
    obtain ⟨i, hi, is, his, rfl⟩ := h
    obtain ⟨hlen, hall⟩ := ih his
    rw [zip_cons_cons, forall_mem_cons]
    exact ⟨congrArg (· + 1) hlen, hi, hall⟩

theorem hasExtInfo_of_compute (h : computeMiniscriptPolicyExtInfo overread ctx node = some info) :
    HasExtInfo overread ctx node info := by
  induction node using induction generalizing info with
  | sh | wsh | tr => simp [computeMiniscriptPolicyExtInfo] at h
  | constant flags | withHash flags | withUint32 flags =>
    cases flags with
    | none => simp [computeMiniscriptPolicyExtInfo, isMiniscript, flags] at h
    | some flags =>
      cases h
      constructor
  | withKey flags | multisig flags =>
    cases flags with
    | none => simp [computeMiniscriptPolicyExtInfo, isMiniscript, flags] at h
    | some flags =>
      constructor
      exact h
  | andor flags x y z ihx ihy ihz =>
    simp only [computeMiniscriptPolicyExtInfo, Option.ite_none_right_eq_some, Option.bind_eq_bind,
      Option.bind_eq_some_iff, Option.pure_def, Option.some.injEq] at h
    obtain ⟨hmini, ix, hx, iy, hy, iz, hz, rfl⟩ := h
    obtain ⟨flags, rfl⟩ := Option.isSome_iff_exists.mp hmini
    exact .andor (ihx hx) (ihy hy) (ihz hz)
  | withScript2 flags token x y ihx ihy =>
    simp only [computeMiniscriptPolicyExtInfo, Option.ite_none_right_eq_some, Option.bind_eq_bind,
      Option.bind_eq_some_iff, Option.pure_def, Option.some.injEq] at h
    obtain ⟨hmini, ix, hx, iy, hy, rfl⟩ := h
    obtain ⟨flags, rfl⟩ := Option.isSome_iff_exists.mp hmini
    exact .withScript2 (ihx hx) (ihy hy)
  | thresh flags k xs ih =>
    simp only [computeMiniscriptPolicyExtInfo, Option.ite_none_right_eq_some, Option.bind_eq_bind,
      Option.bind_eq_some_iff] at h
    obtain ⟨hmini, infos, hinfos, h⟩ := h
    obtain ⟨flags, rfl⟩ := Option.isSome_iff_exists.mp hmini
    obtain ⟨hlen, hall⟩ := computeExtInfos_zip hinfos
    exact .thresh hlen (fun p hp => ih p.1 (of_mem_zip hp).1 (hall p hp)) h
  | wrapper flags token x ih =>
    simp only [computeMiniscriptPolicyExtInfo, Option.ite_none_right_eq_some, Option.bind_eq_bind,
      Option.bind_eq_some_iff, Option.pure_def, Option.some.injEq] at h
    obtain ⟨hmini, ix, hx, rfl⟩ := h
    obtain ⟨flags, rfl⟩ := Option.isSome_iff_exists.mp hmini
    exact .wrapper (ih hx)

theorem nonneg_of_toUint32_le {n : Int16} {bound : Nat} (h : toUint32 n ≤ bound)
    (hbound : bound < 2 ^ 31) : 0 ≤ n := by
  rw [Int16.le_iff_toInt_le]
  have hmin := Int16.le_toInt n
  have hzero : (0 : Int16).toInt = 0 := rfl
  simp only [toUint32] at h
  omega

theorem exists_extInfo_of_sane (h : isMiniscriptSane overread ctx node) :
    ∃ info, HasExtInfo overread ctx node info ∧ info.m ∧ info.s ∧ 0 ≤ info.ss.sat := by
  simp only [isMiniscriptSane] at h
  split at h
  · rename_i flags info hflags hinfo
    simp only [extInfoSane, Bool.and_eq_true, decide_eq_true_eq] at h
    obtain ⟨-, ⟨⟨⟨⟨⟨⟨hm, hs⟩, -⟩, -⟩, hsat⟩, -⟩, -⟩, -⟩ := h
    exact ⟨info, hasExtInfo_of_compute hinfo, hm, hs, nonneg_of_toUint32_le hsat (by decide)⟩
  · simp at h

end

/-- The device finds the same `s`, `f` and `e` as the table, and `m` only where the table has it. -/
structure ClaimsAtMost (info : PolicyNodeExtInfo) (mal : Mal) : Prop where
  s : info.s = mal.s
  f : info.f = mal.f
  e : info.e = mal.e
  m : info.m → mal.m

namespace ClaimsAtMost

theorem constantInfo (token : ConstantToken) :
    ClaimsAtMost (constantInfo token) (Mal.ofFragment token.fragment) := by
  cases token <;> exact ⟨rfl, rfl, rfl, fun _ => rfl⟩

theorem hashInfo (token : HashToken) : ClaimsAtMost (hashInfo token) (Mal.ofFragment .hash) := by
  cases token <;> exact ⟨rfl, rfl, rfl, fun _ => rfl⟩

theorem uint32Info (n : UInt32) (token : Uint32Token) :
    ClaimsAtMost (uint32Info n token) (Mal.ofFragment (token.fragment n.toNat)) := by
  cases token <;> exact ⟨rfl, rfl, rfl, fun _ => rfl⟩

variable {info : PolicyNodeExtInfo}

theorem keyInfo {ctx : Context} (h : keyInfo ctx token = some info)
    (none : Mal) : ClaimsAtMost info (token.fragment.elim none Mal.ofFragment) := by
  cases token with
  | wpkh => simp [LedgerBabylon.keyInfo] at h
  | pk | pkh | pkK | pkH =>
    cases h
    exact ⟨rfl, rfl, rfl, fun _ => rfl⟩

theorem multisigInfo {token : MultisigToken} (h : multisigInfo k n token = some info) (none : Mal) :
    ClaimsAtMost info ((token.fragment k n).elim none Mal.ofFragment) := by
  cases token with
  | sortedmulti | sortedmultiA => simp [LedgerBabylon.multisigInfo] at h
  | multi | multiA =>
    cases h
    exact ⟨rfl, rfl, rfl, fun _ => rfl⟩

variable {x y z : PolicyNodeExtInfo} {tx ty tz : Mal}

theorem andorInfo (hx : ClaimsAtMost x tx) (hy : ClaimsAtMost y ty) (hz : ClaimsAtMost z tz) :
    ClaimsAtMost (andorInfo x y z) (Mal.ofFragment (.andor tx ty tz)) := by
  obtain ⟨hxs, hxf, hxe, hxm⟩ := hx
  obtain ⟨hys, hyf, hye, hym⟩ := hy
  obtain ⟨hzs, hzf, hze, hzm⟩ := hz
  constructor <;> simp only [LedgerBabylon.andorInfo, Mal.ofFragment, Mal.andor, Bool.and_eq_true, *]
  tauto

theorem script2Info (token : Script2Token) (hx : ClaimsAtMost x tx) (hy : ClaimsAtMost y ty) :
    ClaimsAtMost (script2Info token x y) (Mal.ofFragment (token.fragment tx ty)) := by
  obtain ⟨hxs, hxf, hxe, hxm⟩ := hx
  obtain ⟨hys, hyf, hye, hym⟩ := hy
  cases token <;> constructor <;>
    simp only [LedgerBabylon.script2Info, andVInfo, andBInfo, andNInfo, orBInfo, orCInfo, orDInfo,
      orIInfo, Script2Token.fragment, Mal.ofFragment, Mal.andV, Mal.andor, Mal.orI, Mal.zero,
      Bool.and_eq_true, Bool.true_and, Bool.false_and, Bool.or_true, *] <;>
    tauto

theorem wrapperInfo (token : WrapperToken) (hx : ClaimsAtMost x tx) :
    ClaimsAtMost (wrapperInfo x token) (Mal.ofFragment (token.fragment tx)) := by
  obtain ⟨hxs, hxf, hxe, hxm⟩ := hx
  cases token <;> constructor <;>
    simp [LedgerBabylon.wrapperInfo, WrapperToken.fragment, Mal.ofFragment, Mal.andV, Mal.orI,
      Mal.zero, Mal.one, Mal.wrapC, *] <;>
    exact hxm

theorem countP_s (h : List.Forall₂ ClaimsAtMost xs txs) : xs.countP (·.s) = txs.countP Mal.s := by
  induction h with
  | nil => rfl
  | cons hx _ ih => rw [countP_cons, countP_cons, ih, hx.s]

theorem countP_e (h : List.Forall₂ ClaimsAtMost xs txs) : xs.countP (·.e) = txs.countP Mal.e := by
  induction h with
  | nil => rfl
  | cons hx _ ih => rw [countP_cons, countP_cons, ih, hx.e]

variable {overread : Nat → Int16}

theorem threshInfo (h : threshInfo overread k xs = some info) (hxs : List.Forall₂ ClaimsAtMost xs txs)
    (hm : ∀ t ∈ txs, t.m) : ClaimsAtMost info (Mal.ofFragment (.thresh k txs)) := by
  have hnot : txs.countP (fun t => !t.s) = txs.length - txs.countP Mal.s := by
    have hlen : txs.length = txs.countP Mal.s + txs.countP (fun t => !t.s) := by
      simpa using length_eq_countP_add_countP Mal.s (l := txs)
    omega
  simp only [LedgerBabylon.threshInfo, hxs.length_eq, countP_s hxs, countP_e hxs, ← hnot] at h
  split_ifs at h
  cases h
  have hall : ∀ p : Mal → Bool, txs.all p = decide (txs.countP p = txs.length) := fun p => by
    rw [Bool.eq_iff_iff, all_eq_true, decide_eq_true_eq, countP_eq_length]
  constructor
  · rfl
  · rfl
  · exact (hall _).symm
  · intro hmal
    simp only [Bool.and_eq_true, decide_eq_true_eq] at hmal
    simp only [Mal.ofFragment, hall, hmal, Bool.and_eq_true, decide_eq_true_eq, and_true]
    exact countP_eq_length.mpr hm

end ClaimsAtMost

def malleability (node : PolicyNode) : Mal := node.fold ⟨false, false, false, false⟩ Mal.ofFragment

def PolicyNode.threshChildren : PolicyNode → List PolicyNode
  | .thresh _ _ scripts => scripts
  | _ => []

def ThreshChildrenNonmalleable (node : PolicyNode) : Prop :=
  node.AllNodes fun n => ∀ x ∈ n.threshChildren, (malleability x).m

section

variable {overread : Nat → Int16} {ctx : Context}

instance (node : PolicyNode) : Decidable (ThreshChildrenNonmalleable node) :=
  inferInstanceAs (Decidable (node.AllNodes _))

variable {node : PolicyNode}

/-- If no child of a `thresh` is malleable then the attributes are those of the table. -/
theorem HasExtInfo.claimsAtMost
    (h : HasExtInfo overread ctx node info) (hthresh : ThreshChildrenNonmalleable node) :
    ClaimsAtMost info (malleability node) := by
  induction h with
  | constant => exact .constantInfo _
  | withHash => exact .hashInfo _
  | withKey h => exact .keyInfo h _
  | withUint32 => exact .uint32Info _ _
  | multisig h => exact .multisigInfo h _
  | andor _ _ _ ihx ihy ihz =>
    obtain ⟨hx, hy, hz⟩ := hthresh.andor
    exact .andorInfo (ihx hx) (ihy hy) (ihz hz)
  | withScript2 _ _ ihx ihy =>
    obtain ⟨hx, hy⟩ := hthresh.withScript2
    exact .script2Info _ (ihx hx) (ihy hy)
  | @thresh _ k xs infos info hlen _ h ih =>
    have hm : ∀ x ∈ xs, (malleability x).m := hthresh.self
    rw [malleability, fold, foldList_eq_map]
    refine .threshInfo h ?_ (forall_mem_map.mpr hm)
    exact forall₂_map_of_zip hlen fun p hp => ih p hp (hthresh.child (of_mem_zip hp).1)
  | wrapper _ ih => exact .wrapperInfo _ (ih hthresh.wrapper)

/-- The table requires of every part of an expression that it is not malleable. -/
theorem threshChildrenNonmalleable_of_m (h : (malleability node).m) :
    ThreshChildrenNonmalleable node := by
  induction node using induction_children with
  | step node ih =>
    rw [malleability, fold_eq] at h
    cases hfr : node.fragment malleability with
    | none => simp [show node.fragment (fold _ _) = none from hfr] at h
    | some fr =>
      rw [show node.fragment (fold _ _) = some fr from hfr] at h
      have hchildren : ∀ x ∈ node.children, (malleability x).m := fun x hx =>
        Mal.m_of_mem_children h (by
          rw [children_of_fragment hfr]
          exact mem_map_of_mem hx)
      intro c hc
      rcases eq_or_mem_of_mem_subnodes hfr hc with rfl | ⟨x, hx, hc⟩
      · intro x hx
        refine hchildren x ?_
        cases node <;> simp_all [threshChildren, children]
      · exact ih x hx (hchildren x hx) c hc

/-- **Malleability of sane expressions.** A sane expression has the properties `m` and `s` in the table
exactly if all children of `thresh` in it have `m`. -/
theorem isMiniscriptSane_nonmalleable {node : PolicyNode} (h : isMiniscriptSane overread ctx node) :
    ((malleability node).m ∧ (malleability node).s) ↔ ThreshChildrenNonmalleable node := by
  constructor
  · intro hmal
    exact threshChildrenNonmalleable_of_m hmal.1
  · intro hthresh
    obtain ⟨info, hinfo, hm, hs, -⟩ := exists_extInfo_of_sane h
    have hclaims := hinfo.claimsAtMost hthresh
    exact ⟨hclaims.m hm, hclaims.s ▸ hs⟩

end

def lockedTemplate : Bytes := text "wsh(thresh(2,pk(@0/**),s:pk(@1/**),sln:older(144)))"

theorem isMiniscriptSane_nonmalleable_locked :
    ∃ root, parseDescriptorTemplate (.device 2) lockedTemplate = some root
      ∧ ∃ c ∈ root.subnodes false, isMiniscriptSane (fun _ => 0) .p2wsh c.2
        ∧ c.2.threshChildren ≠ [] ∧ (malleability c.2).m ∧ (malleability c.2).s := by
  have hrun : ((parseDescriptorTemplate (.device 2) lockedTemplate).any fun root =>
      (root.subnodes false).any fun c => isMiniscriptSane (fun _ => 0) .p2wsh c.2
        && decide (c.2.threshChildren ≠ []) && decide (ThreshChildrenNonmalleable c.2)) := by
    decide +kernel
  obtain ⟨root, hroot, c, hc, hcheck⟩ := exists_subnode_of_any hrun
  simp only [Bool.and_eq_true, decide_eq_true_eq] at hcheck
  obtain ⟨⟨hsane, hne⟩, hchildren⟩ := hcheck
  exact ⟨root, hroot, c, hc, hsane, hne, (isMiniscriptSane_nonmalleable hsane).mpr hchildren⟩

def hashTemplate : Bytes :=
  text "wsh(thresh(2,or_b(sha256(" ++ text "0102030405060708091011121314151617181920212223242526272829303132"
    ++ text "),s:pk(@0/**)),s:pk(@1/**)))"

/-- A well typed and sane expression whose `thresh` has a malleable child, as the hash cannot be
dissatisfied in a unique way. -/
theorem not_isMiniscriptSane_nonmalleable :
    ∃ root, parseDescriptorTemplate (.device 2) hashTemplate = some root
      ∧ ∃ c ∈ root.subnodes false, (∀ d ∈ c.2.subnodes c.1, TableAccepts d.1 d.2)
        ∧ isMiniscriptSane (fun _ => 0) .p2wsh c.2 ∧ (malleability c.2).m = false := by
  have hrun : ((parseDescriptorTemplate (.device 2) hashTemplate).any fun root =>
      (root.subnodes false).any fun c => (c.2.subnodes c.1).all (fun d => TableAccepts d.1 d.2)
        && isMiniscriptSane (fun _ => 0) .p2wsh c.2 && !(malleability c.2).m) := by
    decide +kernel
  obtain ⟨root, hroot, c, hc, hbad⟩ := exists_subnode_of_any hrun
  simp only [Bool.and_eq_true, all_eq_true, decide_eq_true_eq, Bool.not_eq_true'] at hbad
  exact ⟨root, hroot, c, hc, hbad.1.1, hbad.1.2, hbad.2⟩

theorem nextSatsFrom_nonneg {prev : Int16} (h : (nextSatsFrom sat dsat prev sats)[j]? = some v) (hv : 0 ≤ v) :
    (∃ u, sats[j]? = some u ∧ 0 ≤ u ∧ 0 ≤ dsat) ∨ ∃ u, (prev :: sats)[j]? = some u ∧ 0 ≤ u ∧ 0 ≤ sat := by
  induction sats generalizing prev j with
  | nil =>
    cases j with
    | zero =>
      cases h
      exact .inr ⟨prev, rfl, sumcheck_nonneg_iff.mp hv⟩
    | succ j => simp [nextSatsFrom] at h
  | cons cur sats ih =>
    cases j with
    | zero =>
      cases h
      rcases maxcheck_nonneg_iff.mp hv with hv | hv
      · exact .inl ⟨cur, rfl, sumcheck_nonneg_iff.mp hv⟩
      · exact .inr ⟨prev, rfl, sumcheck_nonneg_iff.mp hv⟩
    | succ j => exact ih h

theorem nextSats_nonneg (h : (nextSats sat dsat sats)[j]? = some v) (hv : 0 ≤ v) :
    (∃ u, sats[j]? = some u ∧ 0 ≤ u ∧ 0 ≤ dsat) ∨ ∃ i u, j = i + 1 ∧ sats[i]? = some u ∧ 0 ≤ u ∧ 0 ≤ sat := by
  cases sats with
  | nil => simp [nextSats] at h
  | cons first sats =>
    cases j with
    | zero =>
      cases h
      exact .inl ⟨first, rfl, sumcheck_nonneg_iff.mp hv⟩
    | succ j => exact (nextSatsFrom_nonneg h hv).imp id fun ⟨u, hu⟩ => ⟨j, u, rfl, hu⟩

theorem length_nextSatsFrom (sat dsat prev : Int16) (sats : List Int16) :
    (nextSatsFrom sat dsat prev sats).length = sats.length + 1 := by
  induction sats generalizing prev with
  | nil => rfl
  | cons cur sats ih => rw [nextSatsFrom, length_cons, ih, length_cons]

theorem length_nextSats (h : sats ≠ []) : (nextSats sat dsat sats).length = sats.length + 1 := by
  cases sats with
  | nil => exact absurd rfl h
  | cons first sats => rw [nextSats, length_cons, length_nextSatsFrom, length_cons]

structure Possible (sat dsat : Int16) (paths : Paths) : Prop where
  sat : 0 ≤ sat → paths.sat
  dsat : 0 ≤ dsat → paths.dsat

def SatsPossible (sats : List Int16) (paths : List Paths) : Prop :=
  sats.length = paths.length + 1 ∧ ∀ j v, sats[j]? = some v → 0 ≤ v → choose j paths

theorem SatsPossible.nextSats (h : SatsPossible sats done) {x : Paths} (hx : Possible sat dsat x) :
    SatsPossible (nextSats sat dsat sats) (done ++ [x]) := by
  refine ⟨?_, fun j v hj hv => ?_⟩
  · have hne : sats ≠ [] := by
      intro hnil
      simp [SatsPossible, hnil] at h
    rw [length_nextSats hne, h.1, length_append, length_singleton]
  · rcases nextSats_nonneg hj hv with ⟨u, hu, hu0, hdsat⟩ | ⟨i, u, rfl, hu, hu0, hsat⟩
    · exact choose_append_of_dsat (h.2 j u hu hu0) (hx.dsat hdsat)
    · exact choose_append_of_sat (h.2 i u hu hu0) (hx.sat hsat)

theorem SatsPossible.foldl (h : SatsPossible sats done) {paths : List Paths}
    (hall : List.Forall₂ (fun c p => Possible c.1 c.2 p) children paths) :
    SatsPossible (children.foldl (fun sats t => LedgerBabylon.nextSats t.1 t.2 sats) sats)
      (done ++ paths) := by
  induction hall generalizing sats done with
  | nil => simpa using h
  | cons hx _ ih => simpa using ih (h.nextSats hx)

theorem threshSats_possible {paths : List Paths}
    (hall : List.Forall₂ (fun c p => Possible c.1 c.2 p) children paths) :
    SatsPossible (threshSats children) paths := by
  have hinit : SatsPossible [0] [] := by
    refine ⟨rfl, fun j v hj _ => ?_⟩
    cases j with
    | zero => rfl
    | succ j => simp at hj
  exact hinit.foldl hall

theorem SatsPossible.getD {paths : List Paths} (h : SatsPossible sats paths)
    (hk : k ≤ paths.length) (hv : 0 ≤ sats.getD k 0) : choose k paths := by
  have hlt : k < sats.length := by
    rw [h.1]
    omega
  refine h.2 k _ (getElem?_eq_getElem hlt) ?_
  rwa [getD_eq_getElem?_getD, getElem?_eq_getElem hlt, Option.getD_some] at hv

def StackPossible (info : PolicyNodeExtInfo) (paths : Paths) : Prop := Possible info.ss.sat info.ss.dsat paths

namespace StackPossible

theorem constantInfo (token : ConstantToken) :
    StackPossible (constantInfo token) (Paths.ofFragment token.fragment) := by
  have hneg : ¬ (0 : Int16) ≤ -1 := by decide
  cases token with
  | zero => exact ⟨fun h => absurd h hneg, fun _ => rfl⟩
  | one => exact ⟨fun _ => rfl, fun h => absurd h hneg⟩

theorem hashInfo (token : HashToken) : StackPossible (hashInfo token) (Paths.ofFragment .hash) :=
  ⟨fun _ => rfl, fun _ => rfl⟩

theorem uint32Info (n : UInt32) (token : Uint32Token) :
    StackPossible (uint32Info n token) (Paths.ofFragment (token.fragment n.toNat)) := by
  have hneg : ¬ (0 : Int16) ≤ -1 := by decide
  cases token <;> exact ⟨fun _ => rfl, fun h => absurd h hneg⟩

theorem keyInfo {ctx : Context} (h : keyInfo ctx token = some info)
    (none : Paths) : StackPossible info (token.fragment.elim none Paths.ofFragment) := by
  cases token with
  | wpkh => simp [LedgerBabylon.keyInfo] at h
  | pk | pkh | pkK | pkH => exact ⟨fun _ => rfl, fun _ => rfl⟩

theorem multisigInfo {token : MultisigToken}
    (h : multisigInfo k n token = some info) (hk : 1 ≤ k ∧ k ≤ n) (none : Paths) :
    StackPossible info ((token.fragment k n).elim none Paths.ofFragment) := by
  cases token with
  | sortedmulti | sortedmultiA => simp [LedgerBabylon.multisigInfo] at h
  | multi | multiA => exact ⟨fun _ => decide_eq_true hk, fun _ => rfl⟩

variable {x y z : PolicyNodeExtInfo} {px py pz : Paths}

theorem andorInfo (hx : StackPossible x px) (hy : StackPossible y py) (hz : StackPossible z pz) :
    StackPossible (andorInfo x y z) (Paths.ofFragment (.andor px py pz)) := by
  obtain ⟨hxs, hxd⟩ := hx
  obtain ⟨hys, -⟩ := hy
  obtain ⟨hzs, hzd⟩ := hz
  constructor <;>
    simp only [LedgerBabylon.andorInfo, sumcheck_nonneg_iff, maxcheck_nonneg_iff, Paths.ofFragment,
      Paths.andor, Bool.and_eq_true, Bool.or_eq_true] <;>
    grind

theorem script2Info (token : Script2Token) (hx : StackPossible x px) (hy : StackPossible y py) :
    StackPossible (script2Info token x y) (Paths.ofFragment (token.fragment px py)) := by
  obtain ⟨hxs, hxd⟩ := hx
  obtain ⟨hys, hyd⟩ := hy
  have hneg : ¬ (0 : Int16) ≤ -1 := by decide
  cases token <;> constructor <;>
    simp only [LedgerBabylon.script2Info, andVInfo, andBInfo, andNInfo, orBInfo, orCInfo, orDInfo,
      orIInfo, sumcheck_nonneg_iff, maxcheck_nonneg_iff, Script2Token.fragment, Paths.ofFragment,
      Paths.andV, Paths.andor, Paths.orI, Paths.zero, Bool.and_eq_true, Bool.or_eq_true] <;>
    grind

theorem wrapperInfo (token : WrapperToken) (hx : StackPossible x px) :
    StackPossible (wrapperInfo x token) (Paths.ofFragment (token.fragment px)) := by
  obtain ⟨hxs, hxd⟩ := hx
  have hneg : ¬ (0 : Int16) ≤ -1 := by decide
  cases token <;> constructor <;>
    simp only [LedgerBabylon.wrapperInfo, sumcheck_nonneg_iff, maxcheck_nonneg_iff,
      WrapperToken.fragment, Paths.ofFragment, Paths.andV, Paths.orI, Paths.zero, Paths.one,
      Bool.and_eq_true, Bool.or_eq_true] <;>
    grind

theorem threshInfo (h : threshInfo overread k xs = some info) (hk : k ≤ xs.length)
    {paths : List Paths} (hxs : List.Forall₂ StackPossible xs paths) :
    StackPossible info (Paths.ofFragment (.thresh k paths)) := by
  simp only [LedgerBabylon.threshInfo] at h
  split_ifs at h with hn
  cases h
  have hsats : SatsPossible (threshSats (xs.map fun t => (t.ss.sat, t.ss.dsat))) paths :=
    threshSats_possible (forall₂_map_left_iff.mpr hxs)
  have hread : k < maxNInThresh + 2 := by omega
  refine ⟨fun hsat => hsats.getD (hxs.length_eq ▸ hk) ?_, fun hdsat => ?_⟩
  · simpa only [readSats, if_pos hread] using hsat
  · have hall := hsats.getD (Nat.zero_le _) hdsat
    rwa [Miniscript.choose] at hall

end StackPossible

def paths (node : PolicyNode) : Paths := node.fold ⟨false, false⟩ Paths.ofFragment

def ThresholdInRange : PolicyNode → Prop
  | .thresh _ k scripts => 1 ≤ k ∧ k ≤ scripts.length
  | .multisig _ _ k keys => 1 ≤ k ∧ k ≤ keys.length
  | _ => True

/-- There is a choice of branches and children that satisfies the expression, and no threshold in it
is out of range. -/
def Spendable (node : PolicyNode) : Prop := (paths node).sat ∧ node.AllNodes ThresholdInRange

def ThreshWithinChildren : PolicyNode → Prop
  | .thresh _ k scripts => k ≤ scripts.length
  | _ => True

instance : (node : PolicyNode) → Decidable (ThresholdInRange node)
  | .thresh _ k scripts => inferInstanceAs (Decidable (1 ≤ k ∧ k ≤ scripts.length))
  | .multisig _ _ k keys => inferInstanceAs (Decidable (1 ≤ k ∧ k ≤ keys.length))
  | .sh _ | .wsh _ | .tr _ _ | .constant _ _ | .withHash _ _ _ | .withKey _ _ _ | .withUint32 _ _ _
  | .andor _ _ _ _ | .withScript2 _ _ _ _ | .wrapper _ _ _ => isTrue trivial

instance : (node : PolicyNode) → Decidable (ThreshWithinChildren node)
  | .thresh _ k scripts => inferInstanceAs (Decidable (k ≤ scripts.length))
  | .sh _ | .wsh _ | .tr _ _ | .constant _ _ | .withHash _ _ _ | .withKey _ _ _ | .withUint32 _ _ _
  | .andor _ _ _ _ | .withScript2 _ _ _ _ | .wrapper _ _ _
  | .multisig _ _ _ _ => isTrue trivial

instance (node : PolicyNode) : Decidable (Spendable node) := inferInstanceAs (Decidable (_ ∧ _))

theorem HasExtInfo.stackPossible {ctx : Context} (h : HasExtInfo overread ctx node info)
    (hrange : node.AllNodes ThresholdInRange) : StackPossible info (paths node) := by
  induction h with
  | constant => exact .constantInfo _
  | withHash => exact .hashInfo _
  | withKey h => exact .keyInfo h _
  | withUint32 => exact .uint32Info _ _
  | multisig h => exact .multisigInfo h hrange.self _
  | andor _ _ _ ihx ihy ihz =>
    obtain ⟨hx, hy, hz⟩ := hrange.andor
    exact .andorInfo (ihx hx) (ihy hy) (ihz hz)
  | withScript2 _ _ ihx ihy =>
    obtain ⟨hx, hy⟩ := hrange.withScript2
    exact .script2Info _ (ihx hx) (ihy hy)
  | @thresh _ k xs infos info hlen _ h ih =>
    have hk : 1 ≤ k ∧ k ≤ xs.length := hrange.self
    rw [paths, fold, foldList_eq_map]
    refine .threshInfo h (hlen ▸ hk.2) ?_
    exact forall₂_map_of_zip hlen fun p hp => ih p hp (hrange.child (of_mem_zip hp).1)
  | wrapper _ ih => exact .wrapperInfo _ (ih hrange.wrapper)

theorem Accepted.thresholdInRange_iff {isTaproot : Bool}
    (h : Accepted isTaproot node) : ThresholdInRange node ↔ ThreshWithinChildren node := by
  cases h with
  | multisig _ h1 h2 _ => exact iff_of_true ⟨h1, h2⟩ trivial
  | thresh hk => exact and_iff_right hk
  | _ => exact Iff.rfl

/-- **Spendability of sane policies.** A sane expression of an accepted template can be spent exactly if
no `thresh` in it has a threshold above the number of its children. -/
theorem parseDescriptorTemplate_spendable {env : ParseEnv} {template : Bytes} {root : PolicyNode}
    (h : parseDescriptorTemplate env template = some root) {isTaproot : Bool} {script : PolicyNode}
    (hscript : (isTaproot, script) ∈ root.subnodes false) {overread : Nat → Int16}
    (hsane : isMiniscriptSane overread (miniscriptContext isTaproot) script) :
    Spendable script ↔ script.AllNodes ThreshWithinChildren := by
  have haccepted := (parseDescriptorTemplate_accepted h).subnode hscript
  have hrange : script.AllNodes fun n => ThresholdInRange n ↔ ThreshWithinChildren n :=
    .of_subnodes fun c hc => (haccepted.subnode hc).thresholdInRange_iff
  have hiff : script.AllNodes ThresholdInRange ↔ script.AllNodes ThreshWithinChildren := forall₂_congr hrange
  rw [Spendable, hiff]
  refine and_iff_right_of_imp fun hwithin => ?_
  obtain ⟨info, hinfo, -, -, hsat⟩ := exists_extInfo_of_sane hsane
  exact (hinfo.stackPossible (hiff.mpr hwithin)).sat hsat

theorem parseDescriptorTemplate_spendable_locked :
    ∃ root, parseDescriptorTemplate (.device 2) lockedTemplate = some root
      ∧ ∃ c ∈ root.subnodes false, isMiniscriptSane (fun _ => 0) (miniscriptContext c.1) c.2
        ∧ c.2.threshChildren ≠ [] ∧ Spendable c.2 := by
  have hrun : ((parseDescriptorTemplate (.device 2) lockedTemplate).any fun root =>
      (root.subnodes false).any fun c => isMiniscriptSane (fun _ => 0) (miniscriptContext c.1) c.2
        && decide (c.2.threshChildren ≠ []) && decide (c.2.AllNodes ThreshWithinChildren)) := by
    decide +kernel
  obtain ⟨root, hroot, c, hc, hcheck⟩ := exists_subnode_of_any hrun
  simp only [Bool.and_eq_true, decide_eq_true_eq] at hcheck
  obtain ⟨⟨hsane, hne⟩, hwithin⟩ := hcheck
  exact ⟨root, hroot, c, hc, hsane, hne, (parseDescriptorTemplate_spendable hroot hc hsane).mpr hwithin⟩

/-- Three of two keys: the template is accepted and sane, and nothing satisfies it. -/
theorem not_parseDescriptorTemplate_spendable :
    ∃ root, parseDescriptorTemplate (.device 2) (text "wsh(thresh(3,pk(@0/**),s:pk(@1/**)))") = some root
      ∧ ∃ c ∈ root.subnodes false, isMiniscriptSane (fun _ => 0) (miniscriptContext c.1) c.2
        ∧ (paths c.2).sat = false := by
  have hrun : ((parseDescriptorTemplate (.device 2)
      (text "wsh(thresh(3,pk(@0/**),s:pk(@1/**)))")).any fun root =>
        (root.subnodes false).any fun c =>
          isMiniscriptSane (fun _ => 0) (miniscriptContext c.1) c.2 && !(paths c.2).sat) := by
    decide +kernel
  obtain ⟨root, hroot, c, hc, hbad⟩ := exists_subnode_of_any hrun
  simp only [Bool.and_eq_true, Bool.not_eq_true'] at hbad
  exact ⟨root, hroot, c, hc, hbad⟩

end LedgerBabylon
