import LedgerBabylon.Common.PolicyParser

/-!
# The types of accepted templates

`Accepted` says what the parser has checked of a tree, and every tree it returns is accepted. The
correctness table of miniscript agrees with these checks except in two places: the first child of
`and_v` may have any type, and the threshold of a `thresh` may exceed the number of its children.
-/

namespace LedgerBabylon

open Miniscript Exec PolicyNode List

variable {token : Script2Token} {isTaproot : Bool} {root : PolicyNode} {x y t : Typ} {c : Bool × PolicyNode}

inductive Accepted : Bool → PolicyNode → Prop
  | sh {isTaproot : Bool} {script : PolicyNode} : Accepted isTaproot script → Accepted isTaproot (.sh script)
  | wsh {isTaproot : Bool} {script : PolicyNode} :
      Accepted isTaproot script → Accepted isTaproot (.wsh script)
  | tr {isTaproot : Bool} {key : KeyExpr} {tree : Option (PolicyTree PolicyNode)} :
      (∀ t ∈ tree, ∀ script ∈ t.leaves, Accepted true script) → Accepted isTaproot (.tr key tree)
  | constant {isTaproot : Bool} {token : ConstantToken} :
      Accepted isTaproot (.constant (some (constantFlags token)) token)
  | withHash {isTaproot : Bool} {token : HashToken} {h : Bytes} :
      Accepted isTaproot (.withHash (some hashFlags) token h)
  | withKey {isTaproot : Bool} {token : KeyToken} {key : KeyExpr} :
      Accepted isTaproot (.withKey (keyFlags token) token key)
  | withUint32 {isTaproot : Bool} {token : Uint32Token} {n : UInt32} :
      1 ≤ n.toNat → n.toNat < 2 ^ 31 → Accepted isTaproot (.withUint32 (some uint32Flags) token n)
  | multisig {isTaproot : Bool} {token : MultisigToken} {k : Nat} {keys : List KeyExpr} :
      (isTaproot ↔ token = .multiA ∨ token = .sortedmultiA) →
      1 ≤ k → k ≤ keys.length → keys.length ≤ maxPubkeysPerMultisig →
      Accepted isTaproot (.multisig (multisigFlags token) token k keys)
  | andor {isTaproot : Bool} {x y z : PolicyNode} {fx fy fz flags : Typ} :
      Accepted isTaproot x → Accepted isTaproot y → Accepted isTaproot z →
      x.flags = some fx → y.flags = some fy → z.flags = some fz →
      andorFlags fx fy fz = some flags → Accepted isTaproot (.andor (some flags) x y z)
  | withScript2 {isTaproot : Bool} {token : Script2Token} {x y : PolicyNode} {fx fy flags : Typ} :
      Accepted isTaproot x → Accepted isTaproot y → x.flags = some fx → y.flags = some fy →
      script2Flags token fx fy = some flags →
      Accepted isTaproot (.withScript2 (some flags) token x y)
  | thresh {isTaproot : Bool} {k : Nat} {scripts : List PolicyNode} {fs : List Typ} :
      1 ≤ k → (∀ x ∈ scripts, Accepted isTaproot x) → scripts.map flags = fs.map some →
      fs ≠ [] → (∀ f ∈ fs.head?, threshChildOk true f) →
      (∀ f ∈ fs.tail, threshChildOk false f) →
      Accepted isTaproot (.thresh (some (threshFlags fs)) k scripts)
  | wrapper {isTaproot : Bool} {token : WrapperToken} {x : PolicyNode} {fx flags : Typ} :
      Accepted isTaproot x → x.flags = some fx → wrapperFlags isTaproot token fx = some flags →
      Accepted isTaproot (.wrapper (some flags) token x)

section

variable {env : ParseEnv} {parseChild : Nat → ParseContext → Parse PolicyNode}
  (hchild : ∀ depth ctx s node s', parseChild depth ctx s = .ok node s' → Accepted ctx.withinTr node)
  {depth : Nat} {ctx : ParseContext} {s s' : ParseState} {node : PolicyNode}

include hchild

theorem parseInner_accepted (h : parseInner env parseChild depth ctx s = .ok node s') :
    Accepted ctx.withinTr node := by
  simp only [parseInner, bind_ok_iff] at h
  obtain ⟨_, s1, -, h⟩ := h
  exact hchild _ _ _ _ _ h

theorem parseSh_accepted (h : parseSh env parseChild depth ctx s = .ok node s') :
    Accepted ctx.withinTr node := by
  simp only [parseSh, bind_ok_iff, pure_ok_iff] at h
  obtain ⟨_, _, -, _, _, -, script, _, hscript, rfl, -⟩ := h
  have haccepted := parseInner_accepted hchild hscript
  exact .sh haccepted

theorem parseWsh_accepted (h : parseWsh env parseChild depth ctx s = .ok node s') :
    Accepted ctx.withinTr node := by
  simp only [parseWsh, bind_ok_iff, pure_ok_iff] at h
  obtain ⟨_, _, -, _, _, -, script, _, hscript, rfl, -⟩ := h
  have haccepted := parseInner_accepted hchild hscript
  exact .wsh haccepted

theorem parseAndor_accepted (h : parseAndor env parseChild depth ctx s = .ok node s') :
    Accepted ctx.withinTr node := by
  simp only [parseAndor, miniscriptFlags, bind_ok_iff, ofOption_ok_iff, pure_ok_iff] at h
  obtain ⟨_, _, -, x, _, hx, _, _, -, y, _, hy, _, _, -, z, _, hz, fx, _, ⟨hfx, -⟩, fy, _, ⟨hfy, -⟩,
    fz, _, ⟨hfz, -⟩, flags, _, ⟨hflags, -⟩, rfl, -⟩ := h
  exact .andor (parseInner_accepted hchild hx) (parseInner_accepted hchild hy)
    (parseInner_accepted hchild hz) hfx hfy hfz hflags

theorem parseScript2_accepted (h : parseScript2 env parseChild depth ctx token s = .ok node s') :
    Accepted ctx.withinTr node := by
  simp only [parseScript2, miniscriptFlags, bind_ok_iff, ofOption_ok_iff, pure_ok_iff] at h
  obtain ⟨_, _, -, x, _, hx, _, _, -, y, _, hy, fx, _, ⟨hfx, -⟩, fy, _, ⟨hfy, -⟩, flags, _,
    ⟨hflags, -⟩, rfl, -⟩ := h
  exact .withScript2 (parseInner_accepted hchild hx) (parseInner_accepted hchild hy) hfx hfy hflags

theorem parseThreshChildren_accepted {rounds : Nat} {isFirst : Bool} {children : List (PolicyNode × Typ)}
    (h : parseThreshChildren env parseChild depth ctx rounds isFirst s = .ok children s') :
    children ≠ [] ∧ (∀ c ∈ children, Accepted ctx.withinTr c.1 ∧ c.1.flags = some c.2)
      ∧ (∀ c ∈ children.head?, threshChildOk isFirst c.2)
      ∧ ∀ c ∈ children.tail, threshChildOk false c.2 := by
  induction rounds generalizing isFirst children s s' with
  | zero => simp [parseThreshChildren] at h
  | succ rounds ih =>
    simp only [parseThreshChildren, miniscriptFlags, bind_ok_iff, ofOption_ok_iff, check_ok_iff] at h
    obtain ⟨x, _, hx, flags, _, ⟨hflags, -⟩, _, _, ⟨hok, -⟩, more, _, -, h⟩ := h
    have haccepted := parseInner_accepted hchild hx
    cases more with
    | false =>
      simp only [Bool.false_eq_true, if_false, pure_ok_iff] at h
      obtain ⟨rfl, -⟩ := h
      simp [haccepted, hflags, hok]
    | true =>
      simp only [if_true, bind_ok_iff, pure_ok_iff] at h
      obtain ⟨_, _, -, xs, _, hxs, rfl, -⟩ := h
      obtain ⟨-, hall, hhead, htail⟩ := ih hxs
      refine ⟨by simp, ?_, by simpa using hok, ?_⟩
      · rw [forall_mem_cons]
        exact ⟨⟨haccepted, hflags⟩, hall⟩
      · rw [tail_cons]
        cases xs with
        | nil => simp
        | cons c cs =>
          rw [forall_mem_cons]
          exact ⟨hhead c rfl, htail⟩

theorem parseThresh_accepted (h : parseThresh env parseChild depth ctx s = .ok node s') :
    Accepted ctx.withinTr node := by
  simp only [parseThresh, bind_ok_iff, check_ok_iff, get_ok_iff, pure_ok_iff] at h
  obtain ⟨_, _, -, k, _, -, _, _, -, _, _, ⟨hk, -⟩, _, _, -, _, _, -, children, _, hchildren, rfl, -⟩ := h
  obtain ⟨hne, hall, hhead, htail⟩ := parseThreshChildren_accepted hchild hchildren
  refine .thresh (of_decide_eq_true hk) ?_ ?_ (by simpa using hne) ?_ ?_
  · intro x hx
    obtain ⟨c, hc, rfl⟩ := mem_map.mp hx
    exact (hall c hc).1
  · rw [map_map, map_map]
    exact map_congr_left fun c hc => (hall c hc).2
  · intro f hf
    rw [head?_map] at hf
    obtain ⟨c, hc, rfl⟩ := Option.map_eq_some_iff.mp hf
    exact hhead c hc
  · intro f hf
    rw [← map_tail] at hf
    obtain ⟨c, hc, rfl⟩ := mem_map.mp hf
    exact htail c hc

theorem parseTree_accepted {levels : Nat} {tree : PolicyTree PolicyNode}
    (h : parseTree env parseChild levels depth s = .ok tree s') :
    ∀ script ∈ tree.leaves, Accepted true script := by
  induction levels generalizing depth tree s s' with
  | zero => simp [parseTree] at h
  | succ levels ih =>
    simp only [parseTree, bind_ok_iff, get_ok_iff, check_ok_iff] at h
    obtain ⟨_, _, -, _, _, -, _, _, -, c, _, -, _, _, -, h⟩ := h
    split_ifs at h
    · simp only [bind_ok_iff, pure_ok_iff] at h
      obtain ⟨script, _, hscript, rfl, -⟩ := h
      have haccepted := parseInner_accepted hchild hscript
      simpa [PolicyTree.leaves] using haccepted
    · simp only [bind_ok_iff, pure_ok_iff] at h
      obtain ⟨_, _, -, _, _, -, l, _, hl, _, _, -, _, _, -, r, _, hr, _, _, -, rfl, -⟩ := h
      intro script hscript
      rcases mem_append.mp hscript with hscript | hscript
      · exact ih hl script hscript
      · exact ih hr script hscript

theorem parseTr_accepted (h : parseTr env parseChild depth s = .ok node s') : Accepted isTaproot node := by
  simp only [parseTr, parseTrTree, bind_ok_iff, pure_ok_iff] at h
  obtain ⟨_, _, -, _, _, -, _, _, -, key, _, -, tree, _, ⟨c, _, -, htree⟩, rfl, -⟩ := h
  refine .tr fun t ht => ?_
  split_ifs at htree
  · simp only [bind_ok_iff, pure_ok_iff] at htree
    obtain ⟨_, _, -, _, _, -, t', _, htree, rfl, -⟩ := htree
    obtain rfl : t' = t := Option.some.inj ht
    exact parseTree_accepted hchild htree
  · simp only [bind_ok_iff, pure_ok_iff] at htree
    obtain ⟨_, _, -, rfl, -⟩ := htree
    simp at ht

omit hchild

theorem parseConstant_accepted {token : ConstantToken}
    (h : parseConstant env token s = .ok node s') : Accepted isTaproot node := by
  simp only [parseConstant, bind_ok_iff, pure_ok_iff] at h
  obtain ⟨_, _, -, rfl, -⟩ := h
  exact .constant

theorem parseHash_accepted {token : HashToken}
    (h : parseHash env token s = .ok node s') : Accepted isTaproot node := by
  simp only [parseHash] at h
  split at h
  all_goals
    simp only [bind_ok_iff, pure_ok_iff] at h
    obtain ⟨_, _, -, _, _, -, rfl, -⟩ := h
    exact .withHash

theorem parseWithKey_accepted {token : KeyToken}
    (h : parseWithKey env depth ctx token s = .ok node s') : Accepted isTaproot node := by
  simp only [parseWithKey, bind_ok_iff, pure_ok_iff] at h
  obtain ⟨_, _, -, _, _, -, _, _, -, key, _, -, rfl, -⟩ := h
  exact .withKey

theorem parseUint32_accepted {token : Uint32Token}
    (h : parseUint32 env token s = .ok node s') : Accepted isTaproot node := by
  simp only [parseUint32, bind_ok_iff, check_ok_iff, pure_ok_iff, Bool.and_eq_true, decide_eq_true_eq] at h
  obtain ⟨_, _, -, n, _, -, _, _, ⟨hn, -⟩, rfl, -⟩ := h
  exact .withUint32 hn.1 hn.2

theorem parseMultisig_accepted {token : MultisigToken}
    (h : parseMultisig env depth ctx token s = .ok node s') : Accepted ctx.withinTr node := by
  simp only [parseMultisig, bind_ok_iff, check_ok_iff, get_ok_iff, pure_ok_iff, Bool.and_eq_true,
    decide_eq_true_eq] at h
  obtain ⟨_, _, -, _, _, ⟨htoken, -⟩, _, _, -, k, _, -, _, _, -, _, _, -, keys, _, -, _, _, ⟨hk, -⟩,
    rfl, -⟩ := h
  refine .multisig ?_ hk.1.1 hk.1.2 hk.2
  cases htr : ctx.withinTr <;> cases token <;> simp_all

theorem applyWrappers_accepted {wrappers : List WrapperToken}
    {inner : PolicyNode} (hinner : Accepted isTaproot inner)
    (h : applyWrappers isTaproot wrappers inner s = .ok node s') : Accepted isTaproot node := by
  induction wrappers generalizing node s s' with
  | nil =>
    simp only [applyWrappers, pure_ok_iff] at h
    exact h.1 ▸ hinner
  | cons token wrappers ih =>
    simp only [applyWrappers, miniscriptFlags, bind_ok_iff, ofOption_ok_iff, pure_ok_iff] at h
    obtain ⟨script, _, hscript, fx, _, ⟨hfx, -⟩, flags, _, ⟨hflags, -⟩, rfl, -⟩ := h
    exact .wrapper (ih hscript) hfx hflags

include hchild in
theorem parseFragment_accepted {token : Token}
    (h : parseFragment env parseChild depth ctx token s = .ok node s') :
    Accepted ctx.withinTr node := by
  simp only [parseFragment] at h
  split at h
  · exact parseConstant_accepted h
  · simp only [bind_ok_iff, pure_ok_iff] at h
    obtain ⟨_, _, -, inner, _, h, _, _, -, rfl, -⟩ := h
    cases token with
    | sh => exact parseSh_accepted hchild h
    | wsh => exact parseWsh_accepted hchild h
    | tr => exact parseTr_accepted hchild h
    | andor => exact parseAndor_accepted hchild h
    | thresh => exact parseThresh_accepted hchild h
    | constant token => exact parseConstant_accepted h
    | hash token => exact parseHash_accepted h
    | key token => exact parseWithKey_accepted h
    | uint32 token => exact parseUint32_accepted h
    | multisig token => exact parseMultisig_accepted h
    | script2 token => exact parseScript2_accepted hchild h

end

/-- **What the parser returns is accepted.** -/
theorem parseScript_accepted {env : ParseEnv} {fuel depth : Nat} {ctx : ParseContext}
    {s s' : ParseState} {node : PolicyNode}
    (h : parseScript env fuel depth ctx s = .ok node s') : Accepted ctx.withinTr node := by
  induction fuel generalizing depth ctx s node s' with
  | zero => simp [parseScript] at h
  | succ fuel ih =>
    simp only [parseScript, bind_ok_iff] at h
    obtain ⟨_, _, -, wrappers, _, -, token, _, -, _, _, -, inner, s1, hinner, _, _, -, h⟩ := h
    exact applyWrappers_accepted (parseFragment_accepted (fun _ _ _ _ _ => ih) hinner) h

theorem parseDescriptorTemplate_accepted {env : ParseEnv} {template : Bytes}
    (h : parseDescriptorTemplate env template = some root) : Accepted false root := by
  simp only [parseDescriptorTemplate] at h
  split_ifs at h
  exact parseScript_accepted (ok_of_returned? h)

def miniscriptContext (isTaproot : Bool) : Context := if isTaproot then .tapscript else .p2wsh

theorem andorFlags_eq (x y z : Typ) : andorFlags x y z = Typ.andor x y z := by
  simp only [andorFlags, Typ.andor]
  split_ifs <;> simp_all

theorem andVFlags_eq (hx : x.base = .V) : andVFlags x y = Typ.andV x y := by
  simp only [andVFlags, Typ.andV, hx]
  split_ifs <;> simp_all [Bool.and_comm]

theorem andV_base (h : Typ.andV x y = some t) : x.base = .V := by
  simp only [Typ.andV] at h
  split_ifs at h with hcond
  exact hcond.1

theorem script2Flags_eq {ctx : Context} (h : token = .andV → x.base = .V) :
    script2Flags token x y = Typ.ofFragment ctx (token.fragment x y) := by
  cases token with
  | andV => exact andVFlags_eq (h rfl)
  | andB | orB =>
    simp only [script2Flags, andBFlags, orBFlags, Script2Token.fragment, Typ.ofFragment]
    split_ifs <;> simp_all [Bool.and_comm]
  | andN =>
    simp only [script2Flags, andNFlags, Script2Token.fragment, Typ.ofFragment, Typ.andor, Typ.zero]
    split_ifs <;> simp_all
  | orC | orD | orI =>
    simp only [script2Flags, orCFlags, orDFlags, orIFlags, Script2Token.fragment, Typ.ofFragment, Typ.orI]
    split_ifs <;> simp_all

theorem wrapperFlags_eq (isTaproot : Bool) (token : WrapperToken) (x : Typ) :
    wrapperFlags isTaproot token x = Typ.ofFragment (miniscriptContext isTaproot) (token.fragment x) := by
  cases token with
  | d =>
    simp only [wrapperFlags, WrapperToken.fragment, Typ.ofFragment, miniscriptContext]
    cases isTaproot <;> split_ifs <;> simp_all
  | l =>
    simp only [wrapperFlags, WrapperToken.fragment, Typ.ofFragment, Typ.orI, Typ.zero]
    cases x.base <;> simp
  | _ =>
    simp only [wrapperFlags, WrapperToken.fragment, Typ.ofFragment, Typ.andV, Typ.one, Typ.orI, Typ.zero,
      Typ.wrapC]
    split_ifs <;> simp_all

theorem keyFlags_eq {token : KeyToken} (ctx : Context) (h : keyFlags token = some t) :
    ∃ fr, token.fragment = some fr ∧ Typ.ofFragment ctx fr = some t := by
  cases token with
  | wpkh => simp [keyFlags] at h
  | pk => exact ⟨.pk, rfl, h⟩
  | pkh => exact ⟨.pkh, rfl, h⟩
  | pkK => exact ⟨.pkK, rfl, h⟩
  | pkH => exact ⟨.pkH, rfl, h⟩

theorem script2Flags_not_z_and_o (hx : ¬ (x.z ∧ x.o)) (hy : ¬ (y.z ∧ y.o))
    (h : script2Flags token x y = some t) : ¬ (t.z ∧ t.o) := by
  cases token <;>
    simp only [script2Flags, andVFlags, andBFlags, andNFlags, orBFlags, orCFlags, orDFlags, orIFlags] at h <;>
    split_ifs at h <;>
    cases h <;>
    simp only [Bool.and_eq_true, Bool.or_eq_true, Bool.false_eq_true] <;>
    tauto

theorem wrapperFlags_not_z_and_o {token : WrapperToken} (hx : ¬ (x.z ∧ x.o))
    (h : wrapperFlags isTaproot token x = some t) : ¬ (t.z ∧ t.o) := by
  cases token <;> simp only [wrapperFlags] at h <;> split_ifs at h <;>
    cases h <;> simp only [Bool.false_eq_true] <;> tauto

/-- No accepted node has both `z` and `o`. -/
theorem Accepted.not_z_and_o {x : PolicyNode} (hx : Accepted isTaproot x)
    (ht : x.flags = some t) : ¬ (t.z ∧ t.o) := by
  induction hx generalizing t with
  | sh | wsh | tr => simp [flags] at ht
  | @constant _ token =>
    cases ht
    cases token <;> simp [constantFlags]
  | withHash =>
    cases ht
    simp [hashFlags]
  | @withKey _ token _ => cases token <;> simp [flags, keyFlags] at ht <;> subst ht <;> simp
  | withUint32 _ _ =>
    cases ht
    simp [uint32Flags]
  | @multisig _ token _ _ _ _ _ _ =>
    cases token <;> simp [flags, multisigFlags] at ht <;> subst ht <;> simp
  | andor _ _ _ hfx hfy hfz hflags ihx ihy ihz =>
    cases ht
    have := ihx hfx
    have := ihy hfy
    have := ihz hfz
    simp only [andorFlags] at hflags
    split_ifs at hflags
    cases hflags
    simp only [Bool.and_eq_true, Bool.or_eq_true]
    tauto
  | withScript2 _ _ hfx hfy hflags ihx ihy =>
    cases ht
    exact script2Flags_not_z_and_o (ihx hfx) (ihy hfy) hflags
  | @thresh _ _ _ fs _ _ _ _ _ _ _ =>
    cases ht
    simp only [threshFlags, Bool.and_eq_true, decide_eq_true_eq]
    omega
  | wrapper _ hfx hflags ih =>
    cases ht
    exact wrapperFlags_not_z_and_o (ih hfx) hflags

def PolicyNode.typ (node : PolicyNode) : Typ := node.flags.getD ⟨.W, false, false, false, false, false⟩

/-- The correctness table accepts the node with the stored types of its children, and gives the type
that is stored in it. -/
def TableAccepts (isTaproot : Bool) (node : PolicyNode) : Prop := (∀ c ∈ node.children, c.isMiniscript)
    ∧ (node.fragment typ).bind (Typ.ofFragment (miniscriptContext isTaproot)) = node.flags

instance (isTaproot : Bool) (node : PolicyNode) : Decidable (TableAccepts isTaproot node) :=
  inferInstanceAs (Decidable (_ ∧ _))

def UncheckedRequirement : PolicyNode → Prop
  | .withScript2 _ .andV x _ => x.typ.base = .V
  | .thresh _ k scripts => k ≤ scripts.length
  | _ => True

instance (node : PolicyNode) : Decidable (UncheckedRequirement node) := by
  unfold UncheckedRequirement
  split <;> infer_instance

theorem PolicyNode.typ_eq {x : PolicyNode} (h : x.flags = some t) : x.typ = t := by
  rw [typ, h, Option.getD_some]

theorem map_typ_eq {xs : List PolicyNode} {fs : List Typ}
    (h : xs.map flags = fs.map some) : xs.map typ = fs := by
  have htyp : typ = (fun o : Option Typ => o.getD ⟨.W, false, false, false, false, false⟩) ∘ flags := rfl
  rw [htyp, ← map_map, h, map_map]
  exact map_id'' (fun _ => rfl) fs

theorem threshFlags_eq_iff {ctx : Context} {k : Nat} {fs : List Typ} (hk : 1 ≤ k)
    (hzo : ∀ f ∈ fs, ¬ (f.z ∧ f.o)) (hhead : ∀ f ∈ fs.head?, threshChildOk true f)
    (htail : ∀ f ∈ fs.tail, threshChildOk false f) :
    Typ.ofFragment ctx (.thresh k fs) = some (threshFlags fs) ↔ k ≤ fs.length := by
  have hchildren : (∀ f ∈ fs.head?, f.base = .B) ∧ (∀ f ∈ fs.tail, f.base = .W) ∧ ∀ f ∈ fs, f.d ∧ f.u := by
    cases fs with
    | nil => simp
    | cons f fs => simp_all [threshChildOk]
  simp only [Typ.ofFragment]
  split_ifs with hcond
  · simp [threshFlags, all_z_eq, oneArg_eq hzo, hcond.2.1]
  · exact iff_of_false (by simp) fun hle => hcond ⟨hk, hle, hchildren⟩

/-- An accepted miniscript node is one of the table exactly when it meets the requirements that
the parser does not check. -/
theorem Accepted.tableAccepts_iff {x : PolicyNode} (hx : Accepted isTaproot x)
    (hmini : x.isMiniscript) : TableAccepts isTaproot x ↔ UncheckedRequirement x := by
  cases hx with
  | sh | wsh | tr => simp [isMiniscript, flags] at hmini
  | @constant _ token =>
    refine iff_of_true ⟨by simp [children], ?_⟩ trivial
    cases token <;> rfl
  | withHash => exact iff_of_true ⟨by simp [children], rfl⟩ trivial
  | @withKey _ token key =>
    obtain ⟨t, ht⟩ := Option.isSome_iff_exists.mp hmini
    obtain ⟨fr, hfr, htable⟩ := keyFlags_eq (miniscriptContext isTaproot) ht
    refine iff_of_true ⟨by simp [children], ?_⟩ trivial
    rw [fragment, hfr, Option.bind_some, htable, ht]
  | @withUint32 _ token n h1 h2 =>
    refine iff_of_true ⟨by simp [children], ?_⟩ trivial
    cases token <;> exact if_pos ⟨h1, h2⟩
  | @multisig _ token k keys htoken h1 h2 h3 =>
    refine iff_of_true ⟨by simp [children], ?_⟩ trivial
    have h20 : keys.length ≤ 20 := Nat.le_trans h3 (by decide)
    cases token with
    | multi =>
      obtain rfl : isTaproot = false := by simpa using htoken
      exact if_pos ⟨rfl, h1, h2, h20⟩
    | multiA =>
      obtain rfl : isTaproot := by simpa using htoken
      exact if_pos ⟨rfl, h1, h2⟩
    | sortedmulti | sortedmultiA => simp [PolicyNode.isMiniscript, PolicyNode.flags, multisigFlags] at hmini
  | andor _ _ _ hfx hfy hfz hflags =>
    refine iff_of_true ⟨?_, ?_⟩ trivial
    · simp [PolicyNode.children, PolicyNode.isMiniscript, hfx, hfy, hfz]
    · rw [PolicyNode.fragment, PolicyNode.typ_eq hfx, PolicyNode.typ_eq hfy, PolicyNode.typ_eq hfz]
      exact (andorFlags_eq _ _ _).symm.trans hflags
  | @withScript2 _ token x y fx fy flags _ _ hfx hfy hflags =>
    have hchildren : ∀ c ∈ (PolicyNode.withScript2 (some flags) token x y).children,
        c.isMiniscript := by
      simp [PolicyNode.children, PolicyNode.isMiniscript, hfx, hfy]
    rw [TableAccepts, and_iff_right hchildren]
    simp only [PolicyNode.fragment, PolicyNode.typ_eq hfx, PolicyNode.typ_eq hfy, Option.bind_some,
      PolicyNode.flags]
    by_cases hV : token = .andV → fx.base = .V
    · rw [← script2Flags_eq hV]
      refine iff_of_true hflags ?_
      cases token <;> simp_all [UncheckedRequirement, typ_eq hfx]
    · obtain ⟨rfl, hbase⟩ := Classical.not_imp.mp hV
      refine iff_of_false (fun h => hbase (andV_base h)) ?_
      rwa [UncheckedRequirement, typ_eq hfx]
  | @thresh _ k scripts fs hk hall hfs _ hhead htail =>
    have hlen : scripts.length = fs.length := by simpa using congrArg length hfs
    have hflags : ∀ x ∈ scripts, ∃ f ∈ fs, x.flags = some f := fun x hx => by
      have := mem_map_of_mem (f := flags) hx
      rw [hfs, mem_map] at this
      obtain ⟨f, hf, hxf⟩ := this
      exact ⟨f, hf, hxf.symm⟩
    have hzo : ∀ f ∈ fs, ¬ (f.z ∧ f.o) := fun f hf => by
      have := mem_map_of_mem (f := some) hf
      rw [← hfs, mem_map] at this
      obtain ⟨x, hx, hxf⟩ := this
      exact (hall x hx).not_z_and_o hxf
    have hchildren : ∀ c ∈ (PolicyNode.thresh (some (threshFlags fs)) k scripts).children,
        c.isMiniscript := by
      intro x hx
      obtain ⟨f, -, hf⟩ := hflags x hx
      rw [PolicyNode.isMiniscript, hf, Option.isSome_some]
    rw [TableAccepts, and_iff_right hchildren]
    simp only [PolicyNode.fragment, map_typ_eq hfs, Option.bind_some, PolicyNode.flags]
    rw [threshFlags_eq_iff hk hzo hhead htail, UncheckedRequirement, hlen]
  | @wrapper _ token x fx flags _ hfx hflags =>
    refine iff_of_true ⟨?_, ?_⟩ trivial
    · simp [children, isMiniscript, hfx]
    · rw [fragment, typ_eq hfx, Option.bind_some, ← wrapperFlags_eq]
      exact hflags

theorem Accepted.of_child {x : PolicyNode} (hx : Accepted isTaproot x)
    (h : c = (isTaproot, x) ∨ Accepted c.1 c.2) : Accepted c.1 c.2 := by
  rcases h with rfl | h
  · exact hx
  · exact h

theorem Accepted.subnode_cases (h : Accepted isTaproot root) (hc : c ∈ root.subnodes isTaproot) :
    c = (isTaproot, root) ∨ Accepted c.1 c.2 := by
  induction h with
  | sh hx ih | wsh hx ih | wrapper hx _ _ ih =>
    exact (mem_cons.mp hc).imp_right fun hc => hx.of_child (ih hc)
  | @tr _ _ tree hleaves ih =>
    refine (mem_cons.mp hc).imp_right fun hc => ?_
    cases tree with
    | none => simp [subnodesOption] at hc
    | some tree =>
      obtain ⟨x, hx, hc⟩ := mem_subnodesTree.mp hc
      exact (hleaves tree rfl x hx).of_child (ih tree rfl x hx hc)
  | constant | withHash | withKey | withUint32 | multisig => exact .inl (mem_singleton.mp hc)
  | andor hx hy hz _ _ _ _ ihx ihy ihz =>
    refine (mem_cons.mp hc).imp_right fun hc => ?_
    rcases mem_append.mp hc with hc | hc
    · rcases mem_append.mp hc with hc | hc
      · exact hx.of_child (ihx hc)
      · exact hy.of_child (ihy hc)
    · exact hz.of_child (ihz hc)
  | withScript2 hx hy _ _ _ ihx ihy =>
    refine (mem_cons.mp hc).imp_right fun hc => ?_
    rcases mem_append.mp hc with hc | hc
    · exact hx.of_child (ihx hc)
    · exact hy.of_child (ihy hc)
  | thresh _ hall _ _ _ _ ih =>
    refine (mem_cons.mp hc).imp_right fun hc => ?_
    obtain ⟨x, hx, hc⟩ := mem_subnodesList.mp hc
    exact (hall x hx).of_child (ih x hx hc)

theorem Accepted.subnode (h : Accepted isTaproot root) (hc : c ∈ root.subnodes isTaproot) : Accepted c.1 c.2 :=
  h.of_child (h.subnode_cases hc)

/-- **Type soundness of the parser.** The miniscript nodes that `parse_script` returns meet the side
conditions of the correctness table and have its types, except for an `and_v` whose first child is not
of type V, and a `thresh` with `k > n`. -/
theorem parseScript_type_sound {env : ParseEnv} {fuel depth : Nat} {ctx : ParseContext}
    {s s' : ParseState} {root : PolicyNode} (h : parseScript env fuel depth ctx s = .ok root s')
    {isTaproot : Bool} {x : PolicyNode} (hx : (isTaproot, x) ∈ root.subnodes ctx.withinTr)
    (hmini : x.isMiniscript) : TableAccepts isTaproot x ↔ UncheckedRequirement x :=
  ((parseScript_accepted h).subnode hx).tableAccepts_iff hmini

theorem parseScript_type_sound_staking : ∃ root s', parseScript (.device 2) 60 0 ⟨false, false, false⟩
        ⟨text "tr(@0/**,and_v(v:pk(@1/**),thresh(2,pk(@2/**),s:pk(@3/**))))", 0, 0⟩ = .ok root s'
      ∧ root.subnodes false ≠ []
      ∧ ∀ c ∈ root.subnodes false, c.2.isMiniscript → TableAccepts c.1 c.2 := by
  have hrun : ((returned? (parseScript (.device 2) 60 0 ⟨false, false, false⟩)
      ⟨text "tr(@0/**,and_v(v:pk(@1/**),thresh(2,pk(@2/**),s:pk(@3/**))))", 0, 0⟩).any fun root =>
        root.subnodes false ≠ [] && (root.subnodes false).all fun c => UncheckedRequirement c.2)
      := by
    decide +kernel
  obtain ⟨root, hroot, hcheck⟩ := (Option.any_eq_true _ _).mp hrun
  simp only [Bool.and_eq_true, decide_eq_true_eq, List.all_eq_true] at hcheck
  have hok := ok_of_returned? hroot
  exact ⟨root, _, hok, hcheck.1, fun c hc hmini =>
    (parseScript_type_sound hok hc hmini).mpr (hcheck.2 c hc)⟩

theorem exists_subnode_of_any {env : ParseEnv} {template : Bytes} {p : Bool × PolicyNode → Bool}
    (h : ((parseDescriptorTemplate env template).any fun root => (root.subnodes false).any p)) :
    ∃ root, parseDescriptorTemplate env template = some root ∧ ∃ c ∈ root.subnodes false, p c := by
  obtain ⟨root, hroot, hany⟩ := (Option.any_eq_true _ _).mp h
  exact ⟨root, hroot, any_eq_true.mp hany⟩

/-- An `and_v` whose first child has type B, and a `thresh` with more than all of its children. -/
theorem not_parseDescriptorTemplate_type_sound :
    (∃ root, parseDescriptorTemplate (.device 2) (text "wsh(and_v(pk(@0/**),older(144)))") = some root
      ∧ ∃ c ∈ root.subnodes false, c.2.isMiniscript ∧ ¬ TableAccepts c.1 c.2)
    ∧ ∃ root, parseDescriptorTemplate (.device 2) (text "wsh(thresh(3,pk(@0/**),s:pk(@1/**)))") = some root
      ∧ ∃ c ∈ root.subnodes false, c.2.isMiniscript ∧ ¬ TableAccepts c.1 c.2 := by
  have huntyped {template : Bytes} (hrun :
      ((parseDescriptorTemplate (.device 2) template).any fun root => (root.subnodes false).any
        fun c => c.2.isMiniscript && !decide (TableAccepts c.1 c.2))) :
      ∃ root, parseDescriptorTemplate (.device 2) template = some root
        ∧ ∃ c ∈ root.subnodes false, c.2.isMiniscript ∧ ¬ TableAccepts c.1 c.2 := by
    obtain ⟨root, hroot, c, hc, hbad⟩ := exists_subnode_of_any hrun
    exact ⟨root, hroot, c, hc, by simpa using hbad⟩
  exact ⟨huntyped (by decide +kernel), huntyped (by decide +kernel)⟩

end LedgerBabylon
