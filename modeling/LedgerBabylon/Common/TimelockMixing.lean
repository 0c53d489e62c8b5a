import LedgerBabylon.Common.MiniscriptSanity
import LedgerBabylon.Lib.MiniscriptWays
import Mathlib.Algebra.Order.Group.Multiset
import Mathlib.Data.Nat.Bitwise

/-!
# Timelocks that cannot be met together

A lock to a height and a lock to a time of the same sort cannot both be met by one input. The analysis
collects the kinds of locks that occur in an expression, and the attribute `k` says that no way to
satisfy it needs two that clash. The locks of a way are a cost of satisfactions.
-/

namespace LedgerBabylon

open List Miniscript Exec

variable {j : Nat} {ctx : Context} {overread : Nat → Int16}
open scoped Pointwise

variable {info : PolicyNodeExtInfo}

inductive Lock where
  | older (n : Nat)
  | after (n : Nat)
  deriving DecidableEq, Repr

variable {a b : Lock}

/-- Relative locks are times if they have bit 22, absolute ones from the threshold on. -/
def Lock.isTime : Lock → Bool
  | .older n => n.testBit 22
  | .after n => 500000000 ≤ n

/-- One of the locks is a time and the other a height, both relative or both absolute. -/
def Lock.Clash : Lock → Lock → Prop
  | .older m, .older n => (Lock.older m).isTime ≠ (Lock.older n).isTime
  | .after m, .after n => (Lock.after m).isTime ≠ (Lock.after n).isTime
  | _, _ => False

def Mixed (locks : Multiset Lock) : Prop := ∃ a ∈ locks, ∃ b ∈ locks, a.Clash b

def lockCosts : Costs (Multiset Lock) where
  signature := 0
  noSignature := 0
  pubkey := 0
  preimage := 0
  wrongPreimage := {0}
  older n := {.older n}
  after n := {.after n}
  multiSat _ _ := 0
  multiDsat _ _ := 0
  multiASat _ _ := 0
  multiADsat _ _ := 0
  one := 0
  zero := 0

def lockWays (node : PolicyNode) : Ways (Multiset Lock) := node.fold ⟨∅, ∅⟩ (Ways.ofFragment lockCosts)

namespace Timelocks

def has (l : Timelocks) (a : Lock) : Bool :=
  match a with
  | .older _ => if a.isTime then l.g else l.h
  | .after _ => if a.isTime then l.i else l.j

theorem has_either (l m : Timelocks) (a : Lock) : (either l m).has a = (l.has a || m.has a) := by
  cases a <;> simp only [has, either] <;> split_ifs <;> rfl

theorem mixed_of_clash {l m : Timelocks} (h : a.Clash b) (ha : l.has a)
    (hb : m.has b) : mixed l m := by
  cases a <;> cases b <;> simp only [Lock.Clash, has, mixed] at * <;> grind

theorem mixed_comm (l m : Timelocks) : mixed l m = mixed m l := by
  simp only [mixed]
  grind

theorem andor_eq (x y z : Timelocks) : andor x y z = either (both x y) z := by
  simp only [andor, both, either]
  grind

end Timelocks

theorem Lock.Clash.symm (h : a.Clash b) : b.Clash a := by
  cases a <;> cases b <;> simp only [Lock.Clash] at h ⊢
  · exact h.symm
  · exact h.symm

def Free (ways : Set (Multiset Lock)) : Prop := ∀ p ∈ ways, p = 0

/-- The kinds of the locks that the ways need are collected, and `k` tells if none is mixed. -/
structure Covers (l : Timelocks) (ways : Set (Multiset Lock)) : Prop where
  has : ∀ p ∈ ways, ∀ a ∈ p, l.has a
  unmixed : l.k → ∀ p ∈ ways, ¬ Mixed p

theorem not_mixed_zero : ¬ Mixed 0 := by
  simp [Mixed]

theorem Free.add {s t : Set (Multiset Lock)} (hs : Free s) (ht : Free t) : Free (s + t) := by
  rintro _ ⟨p, hp, q, hq, rfl⟩
  show p + q = 0
  rw [hs p hp, ht q hq, add_zero]

theorem Free.union {s t : Set (Multiset Lock)} (hs : Free s) (ht : Free t) : Free (s ∪ t) := by
  rintro p (hp | hp)
  · exact hs p hp
  · exact ht p hp

namespace Covers

variable {l m : Timelocks} {s t : Set (Multiset Lock)}

theorem of_free (h : Free s) : Covers l s where
  has p hp a ha := by
    rw [h p hp] at ha
    exact absurd ha (Multiset.notMem_zero a)
  unmixed _ p hp := by
    rw [h p hp]
    exact not_mixed_zero

theorem add_free (hs : Covers l s) (ht : Free t) : Covers l (s + t) := by
  have hsub : ∀ p ∈ s + t, p ∈ s := by
    rintro _ ⟨p, hp, q, hq, rfl⟩
    show p + q ∈ s
    rwa [ht q hq, add_zero]
  exact ⟨fun p hp => hs.has p (hsub p hp), fun hk p hp => hs.unmixed hk p (hsub p hp)⟩

theorem free_add (hs : Free s) (ht : Covers l t) : Covers l (s + t) := by
  rw [add_comm]
  exact ht.add_free hs

theorem union (hs : Covers l s) (ht : Covers m t) : Covers (.either l m) (s ∪ t) := by
  constructor
  · rintro p (hp | hp) a ha
    · rw [Timelocks.has_either, hs.has p hp a ha, Bool.true_or]
    · rw [Timelocks.has_either, ht.has p hp a ha, Bool.or_true]
  · intro hk
    rw [Timelocks.either, Bool.and_eq_true] at hk
    rintro p (hp | hp)
    · exact hs.unmixed hk.1 p hp
    · exact ht.unmixed hk.2 p hp

theorem not_mixed_add {p q : Multiset Lock} (hp : ¬ Mixed p) (hq : ¬ Mixed q)
    (hpq : ∀ a ∈ p, ∀ b ∈ q, ¬ a.Clash b) : ¬ Mixed (p + q) := by
  rintro ⟨a, ha, b, hb, hclash⟩
  rcases Multiset.mem_add.mp ha with ha | ha <;> rcases Multiset.mem_add.mp hb with hb | hb
  · exact hp ⟨a, ha, b, hb, hclash⟩
  · exact hpq a ha b hb hclash
  · exact hpq b hb a ha hclash.symm
  · exact hq ⟨a, ha, b, hb, hclash⟩

theorem add (hs : Covers l s) (ht : Covers m t) : Covers (.both l m) (s + t) := by
  constructor
  · rintro _ ⟨p, hp, q, hq, rfl⟩ a ha
    show (Timelocks.either l m).has a
    rw [Timelocks.has_either, Bool.or_eq_true]
    exact (Multiset.mem_add.mp ha).imp (hs.has p hp a) (ht.has q hq a)
  · intro hk
    simp only [Timelocks.both, Bool.and_eq_true, Bool.not_eq_true'] at hk
    obtain ⟨⟨hl, hm⟩, hmixed⟩ := hk
    rintro _ ⟨p, hp, q, hq, rfl⟩
    apply not_mixed_add (hs.unmixed hl p hp) (ht.unmixed hm q hq)
    intro a ha b hb hclash
    rw [Timelocks.mixed_of_clash hclash (hs.has p hp a ha) (ht.has q hq b hb)] at hmixed
    cases hmixed

end Covers

namespace Timelocks

def threshFrom (k : Nat) (out : Timelocks) (xs : List Timelocks) : Timelocks := xs.foldl (fun out t =>
    let out := either out t
    { out with k := out.k && !(2 ≤ k && mixed t out) }) out

theorem thresh_eq (k : Nat) (xs : List Timelocks) :
    thresh k xs = threshFrom k ⟨false, false, false, false, true⟩ xs := rfl

variable {k : Nat} {out : Timelocks} {xs : List Timelocks}

theorem has_threshFrom :
    (threshFrom k out xs).has a ↔ out.has a = true ∨ ∃ x ∈ xs, x.has a := by
  induction xs generalizing out with
  | nil => simp [threshFrom]
  | cons x xs ih =>
    have hstep : threshFrom k out (x :: xs) =
        threshFrom k { either out x with
          k := (either out x).k && !(2 ≤ k && mixed x (either out x)) } xs := rfl
    have hhas : ∀ b, has { either out x with k := b } a = (either out x).has a := fun b => rfl
    rw [hstep, ih, hhas, has_either]
    simp [or_assoc]

/-- If `k` is left at the end then no child lacks it, and two children of which both may be satisfied
have no locks that clash. -/
theorem k_threshFrom (h : (threshFrom k out xs).k) : out.k ∧ (∀ x ∈ xs, x.k) ∧
      (2 ≤ k → (∀ x ∈ xs, mixed x out = false) ∧ xs.Pairwise fun x y => mixed x y = false) := by
  induction xs generalizing out with
  | nil => exact ⟨h, by simp, by simp⟩
  | cons x xs ih =>
    have hmixed : ∀ t b, mixed t { either out x with k := b } = (mixed t out || mixed t x) := by
      intro t b
      simp only [mixed, either]
      grind
    obtain ⟨hk, hall, hpair⟩ := ih h
    have hstep : ((either out x).k && !(2 ≤ k && mixed x (either out x))) := hk
    rw [Bool.and_eq_true, Bool.not_eq_true', hmixed x] at hstep
    obtain ⟨hboth, hnot⟩ := hstep
    rw [either, Bool.and_eq_true] at hboth
    refine ⟨hboth.1, forall_mem_cons.mpr ⟨hboth.2, hall⟩, ?_⟩
    intro h2
    obtain ⟨hfirst, hrest⟩ := hpair h2
    simp only [hmixed, Bool.or_eq_false_iff] at hfirst
    simp only [h2, decide_true, Bool.true_and, Bool.or_eq_false_iff] at hnot
    refine ⟨forall_mem_cons.mpr ⟨hnot.1, fun t ht => (hfirst t ht).1⟩, pairwise_cons.mpr ⟨?_, hrest⟩⟩
    intro t ht
    rw [mixed_comm]
    exact (hfirst t ht).2

end Timelocks

/-- The locks collected from an expression cover all ways to satisfy it, and no lock is needed to
dissatisfy it. -/
structure LocksCovered (l : Timelocks) (ways : Ways (Multiset Lock)) : Prop where
  sat : Covers l ways.sat
  dsat : Free ways.dsat

section

variable {ls : List Timelocks} {ws : List (Ways (Multiset Lock))}

theorem free_choose_zero (h : Forall₂ LocksCovered ls ws) : Free (Ways.choose 0 ws) := by
  induction h with
  | nil =>
    intro p hp
    exact hp
  | cons hx _ ih => exact hx.dsat.add ih

theorem has_choose (h : Forall₂ LocksCovered ls ws) :
    ∀ p ∈ Ways.choose j ws, ∀ a ∈ p, ∃ l ∈ ls, l.has a := by
  induction h generalizing j with
  | nil =>
    intro p hp a ha
    cases j with
    | zero =>
      obtain rfl : p = 0 := hp
      exact absurd ha (Multiset.notMem_zero a)
    | succ j => exact absurd hp (Set.notMem_empty p)
  | @cons l w ls ws hx hxs ih =>
    have hrest : ∀ p q, p = 0 ∨ p ∈ w.sat → (∃ j, q ∈ Ways.choose j ws) → ∀ a ∈ p + q,
        ∃ m ∈ l :: ls, m.has a := by
      rintro p q hp ⟨j, hq⟩ a ha
      rcases Multiset.mem_add.mp ha with ha | ha
      · rcases hp with rfl | hp
        · exact absurd ha (Multiset.notMem_zero a)
        · exact ⟨l, mem_cons_self, hx.sat.has p hp a ha⟩
      · obtain ⟨m, hm, hhas⟩ := ih q hq a ha
        exact ⟨m, mem_cons_of_mem _ hm, hhas⟩
    cases j with
    | zero =>
      rintro _ ⟨p, hp, q, hq, rfl⟩
      exact hrest p q (.inl (hx.dsat p hp)) ⟨_, hq⟩
    | succ j =>
      rintro _ (⟨p, hp, q, hq, rfl⟩ | ⟨p, hp, q, hq, rfl⟩)
      · exact hrest p q (.inr hp) ⟨_, hq⟩
      · exact hrest p q (.inl (hx.dsat p hp)) ⟨_, hq⟩

theorem choose_one (h : Forall₂ LocksCovered ls ws) (hk : ∀ l ∈ ls, l.k) :
    ∀ p ∈ Ways.choose 1 ws, ¬ Mixed p := by
  induction h with
  | nil =>
    intro p hp
    exact absurd hp (Set.notMem_empty p)
  | @cons l w ls ws hx hxs ih =>
    rw [forall_mem_cons] at hk
    rintro _ (⟨p, hp, q, hq, rfl⟩ | ⟨p, hp, q, hq, rfl⟩)
    · show ¬ Mixed (p + q)
      rw [free_choose_zero hxs q hq, add_zero]
      exact hx.sat.unmixed hk.1 p hp
    · show ¬ Mixed (p + q)
      rw [hx.dsat p hp, zero_add]
      exact ih hk.2 q hq

/-- Children without locks that clash can be satisfied together. -/
theorem choose_unmixed (h : Forall₂ LocksCovered ls ws) (hk : ∀ l ∈ ls, l.k)
    (hpair : ls.Pairwise fun l m => Timelocks.mixed l m = false) :
    ∀ p ∈ Ways.choose j ws, ¬ Mixed p := by
  induction h generalizing j with
  | nil =>
    intro p hp
    cases j with
    | zero =>
      obtain rfl : p = 0 := hp
      exact not_mixed_zero
    | succ j => exact absurd hp (Set.notMem_empty p)
  | @cons l w ls ws hx hxs ih =>
    rw [forall_mem_cons] at hk
    rw [pairwise_cons] at hpair
    have hdsat : ∀ p ∈ w.dsat, ∀ i, ∀ q ∈ Ways.choose i ws, ¬ Mixed (p + q) := by
      intro p hp i q hq
      rw [hx.dsat p hp, zero_add]
      exact ih hk.2 hpair.2 q hq
    cases j with
    | zero =>
      rintro _ ⟨p, hp, q, hq, rfl⟩
      exact hdsat p hp _ q hq
    | succ j =>
      rintro _ (⟨p, hp, q, hq, rfl⟩ | ⟨p, hp, q, hq, rfl⟩)
      · apply Covers.not_mixed_add (hx.sat.unmixed hk.1 p hp) (ih hk.2 hpair.2 q hq)
        intro a ha b hb hclash
        obtain ⟨m, hm, hhas⟩ := has_choose hxs q hq b hb
        have hmixed := Timelocks.mixed_of_clash hclash (hx.sat.has p hp a ha) hhas
        rw [hpair.1 m hm] at hmixed
        cases hmixed
      · exact hdsat p hp _ q hq

theorem covers_thresh (h : Forall₂ LocksCovered ls ws) (k : Nat) :
    Covers (.thresh k ls) (Ways.choose k ws) := by
  constructor
  · intro p hp a ha
    rw [Timelocks.thresh_eq, Timelocks.has_threshFrom]
    exact .inr (has_choose h p hp a ha)
  · intro hk
    rw [Timelocks.thresh_eq] at hk
    obtain ⟨-, hall, hpair⟩ := Timelocks.k_threshFrom hk
    match k with
    | 0 =>
      intro p hp
      rw [free_choose_zero h p hp]
      exact not_mixed_zero
    | 1 => exact choose_one h hall
    | k + 2 => exact choose_unmixed h hall (hpair (by omega)).2

end

theorem free_empty : Free ∅ := by
  intro p hp
  exact absurd hp (Set.notMem_empty p)

theorem free_zero : Free {0} := by
  intro p hp
  exact hp

theorem covers_singleton {l : Timelocks} (h : l.has a) : Covers l {{a}} := by
  constructor
  · rintro _ rfl b hb
    rw [Multiset.mem_singleton.mp hb]
    exact h
  · rintro - _ rfl ⟨b, hb, c, hc, hclash⟩
    rw [Multiset.mem_singleton.mp hb, Multiset.mem_singleton.mp hc] at hclash
    cases a <;> exact hclash rfl

theorem has_older (n : UInt32) : (uint32Info n .older).locks.has (.older n.toNat) := by
  have hbit : n &&& sequenceLocktimeTypeFlag = 0 ↔ n.toNat.testBit 22 = false := by
    rw [← UInt32.toNat_inj, UInt32.toNat_and]
    show n.toNat &&& 2 ^ 22 = 0 ↔ _
    rw [Nat.and_two_pow]
    cases n.toNat.testBit 22 <;> simp
  cases htime : n.toNat.testBit 22 <;> simp [Timelocks.has, Lock.isTime, uint32Info, hbit, htime]

theorem has_after (n : UInt32) : (uint32Info n .after).locks.has (.after n.toNat) := by
  have hle : n ≥ locktimeThreshold ↔ 500000000 ≤ n.toNat := UInt32.le_iff_toNat_le
  have hlt : n < locktimeThreshold ↔ ¬ 500000000 ≤ n.toNat := by
    rw [← hle, ge_iff_le, UInt32.not_le]
  by_cases htime : 500000000 ≤ n.toNat <;> simp [Timelocks.has, Lock.isTime, uint32Info, hle, hlt, htime]

namespace LocksCovered

theorem constantInfo (token : ConstantToken) :
    LocksCovered (constantInfo token).locks (Ways.ofFragment lockCosts token.fragment) := by
  cases token with
  | zero => exact ⟨.of_free free_empty, free_zero⟩
  | one => exact ⟨.of_free free_zero, free_empty⟩

theorem hashInfo (token : HashToken) :
    LocksCovered (hashInfo token).locks (Ways.ofFragment lockCosts .hash) :=
  ⟨.of_free free_zero, free_zero⟩

theorem keyInfo {token : KeyToken} (h : keyInfo ctx token = some info) (none : Ways (Multiset Lock)) :
    LocksCovered info.locks (token.fragment.elim none (Ways.ofFragment lockCosts)) := by
  cases token with
  | wpkh => simp [LedgerBabylon.keyInfo] at h
  | pk | pkh | pkK | pkH => exact ⟨.of_free free_zero, free_zero⟩

theorem multisigInfo {k n : Nat} {token : MultisigToken}
    (h : multisigInfo k n token = some info) (none : Ways (Multiset Lock)) :
    LocksCovered info.locks ((token.fragment k n).elim none (Ways.ofFragment lockCosts)) := by
  cases token with
  | sortedmulti | sortedmultiA => simp [LedgerBabylon.multisigInfo] at h
  | multi | multiA => exact ⟨.of_free free_zero, free_zero⟩

theorem uint32Info (n : UInt32) (token : Uint32Token) :
    LocksCovered (uint32Info n token).locks (Ways.ofFragment lockCosts (token.fragment n.toNat)) := by
  cases token with
  | older => exact ⟨covers_singleton (has_older n), free_empty⟩
  | after => exact ⟨covers_singleton (has_after n), free_empty⟩

variable {x y z : PolicyNodeExtInfo} {wx wy wz : Ways (Multiset Lock)}

theorem andorInfo (hx : LocksCovered x.locks wx) (hy : LocksCovered y.locks wy)
    (hz : LocksCovered z.locks wz) :
    LocksCovered (andorInfo x y z).locks (Ways.ofFragment lockCosts (.andor wx wy wz)) := by
  refine ⟨?_, hx.dsat.add hz.dsat⟩
  show Covers (.andor x.locks y.locks z.locks) _
  rw [Timelocks.andor_eq]
  exact (hx.sat.add hy.sat).union (hz.sat.free_add hx.dsat)

theorem script2Info (token : Script2Token) (hx : LocksCovered x.locks wx) (hy : LocksCovered y.locks wy) :
    LocksCovered (script2Info token x y).locks (Ways.ofFragment lockCosts (token.fragment wx wy)) := by
  have hselect : ∀ {l : Timelocks} {s : Set (Multiset Lock)}, Covers l s → Covers l ({0} + s) :=
    fun h => h.free_add free_zero
  cases token with
  | andV => exact ⟨hx.sat.add hy.sat, free_empty⟩
  | andB => exact ⟨hx.sat.add hy.sat, hx.dsat.add hy.dsat⟩
  | andN =>
    refine ⟨?_, hx.dsat.add free_zero⟩
    show Covers _ ((wx.sat + wy.sat) ∪ (wx.dsat + ∅))
    rw [Set.add_empty, Set.union_empty]
    exact hx.sat.add hy.sat
  | orB => exact ⟨(hx.sat.add_free hy.dsat).union (hy.sat.free_add hx.dsat), hx.dsat.add hy.dsat⟩
  | orC => exact ⟨hx.sat.union (hy.sat.free_add hx.dsat), free_empty⟩
  | orD => exact ⟨hx.sat.union (hy.sat.free_add hx.dsat), hx.dsat.add hy.dsat⟩
  | orI =>
    exact ⟨(hselect hx.sat).union (hselect hy.sat), (free_zero.add hx.dsat).union (free_zero.add hy.dsat)⟩

theorem wrapperInfo (token : WrapperToken) (hx : LocksCovered x.locks wx) :
    LocksCovered (wrapperInfo x token).locks (Ways.ofFragment lockCosts (token.fragment wx)) := by
  cases token with
  | a | s | n | c => exact hx
  | d => exact ⟨hx.sat.free_add free_zero, free_zero⟩
  | v => exact ⟨hx.sat, free_empty⟩
  | j => exact ⟨hx.sat, free_zero⟩
  | t => exact ⟨hx.sat.add_free free_zero, free_empty⟩
  | l =>
    refine ⟨?_, (free_zero.add free_zero).union (free_zero.add hx.dsat)⟩
    show Covers _ (({0} + ∅) ∪ ({0} + wx.sat))
    rw [Set.add_empty, Set.empty_union]
    exact hx.sat.free_add free_zero
  | u =>
    refine ⟨?_, (free_zero.add hx.dsat).union (free_zero.add free_zero)⟩
    show Covers _ (({0} + wx.sat) ∪ ({0} + ∅))
    rw [Set.add_empty, Set.union_empty]
    exact hx.sat.free_add free_zero

theorem threshInfo {k : Nat} {xs : List PolicyNodeExtInfo} (h : threshInfo overread k xs = some info)
    {ways : List (Ways (Multiset Lock))}
    (hxs : Forall₂ (fun (x : PolicyNodeExtInfo) w => LocksCovered x.locks w) xs ways) :
    LocksCovered info.locks (Ways.ofFragment lockCosts (.thresh k ways)) := by
  simp only [LedgerBabylon.threshInfo, Option.ite_none_left_eq_some, Option.some.injEq] at h
  obtain ⟨-, rfl⟩ := h
  have hcovered : Forall₂ LocksCovered (xs.map (·.locks)) ways := forall₂_map_left_iff.mpr hxs
  exact ⟨covers_thresh hcovered k, free_choose_zero hcovered⟩

end LocksCovered

theorem HasExtInfo.locksCovered {node : PolicyNode} (h : HasExtInfo overread ctx node info) :
    LocksCovered info.locks (lockWays node) := by
  induction h with
  | constant => exact .constantInfo _
  | withHash => exact .hashInfo _
  | withKey h => exact .keyInfo h _
  | withUint32 => exact .uint32Info _ _
  | multisig h => exact .multisigInfo h _
  | andor _ _ _ ihx ihy ihz => exact .andorInfo ihx ihy ihz
  | withScript2 _ _ ihx ihy => exact .script2Info _ ihx ihy
  | @thresh _ k xs infos info hlen _ h ih =>
    rw [lockWays, PolicyNode.fold, PolicyNode.foldList_eq_map]
    exact .threshInfo h (forall₂_map_of_zip hlen ih)
  | wrapper _ ih => exact .wrapperInfo _ ih

/-- **No mixed timelocks.** If the analysis leaves `k` then no way to satisfy the expression needs a time
and a height of the same sort. -/
theorem timelocks_not_mixed {overread : Nat → Int16} {ctx : Context} {node : PolicyNode}
    {info : PolicyNodeExtInfo} (h : computeMiniscriptPolicyExtInfo overread ctx node = some info)
    (hk : info.locks.k) : ∀ locks ∈ (lockWays node).sat, ¬ Mixed locks :=
  (hasExtInfo_of_compute h).locksCovered.sat.unmixed hk

/-- A height in one branch and a time in the other. -/
theorem timelocks_not_mixed_branches : ∃ root, parseDescriptorTemplate (.device 2)
        (text "wsh(or_i(and_v(v:pk(@0/**),older(144)),and_v(v:pk(@1/**),older(4194305))))") = some root
      ∧ ∃ c ∈ root.subnodes false, ∃ info, computeMiniscriptPolicyExtInfo (fun _ => 0) .p2wsh c.2 = some info
        ∧ info.locks = ⟨true, true, false, false, true⟩
        ∧ ∀ locks ∈ (lockWays c.2).sat, ¬ Mixed locks := by
  have hrun : ((parseDescriptorTemplate (.device 2)
      (text "wsh(or_i(and_v(v:pk(@0/**),older(144)),and_v(v:pk(@1/**),older(4194305))))")).any fun root =>
        (root.subnodes false).any fun c =>
          (computeMiniscriptPolicyExtInfo (fun _ => 0) .p2wsh c.2).any fun info =>
            info.locks = ⟨true, true, false, false, true⟩) := by
    decide +kernel
  obtain ⟨root, hroot, c, hc, hany⟩ := exists_subnode_of_any hrun
  obtain ⟨info, hinfo, hlocks⟩ := (Option.any_eq_true _ _).mp hany
  rw [decide_eq_true_eq] at hlocks
  exact ⟨root, hroot, c, hc, info, hinfo, hlocks, timelocks_not_mixed hinfo (by rw [hlocks])⟩

end LedgerBabylon
