import LedgerBabylon.Common.KeyArrays
import LedgerBabylon.Common.PolicyTyping
import LedgerBabylon.Handler.PolicyKeys

/-!
# The numbers of key expressions

The parser numbers the key expressions of a template in the order in which it meets them, which is
also the order of their indices. So a number stands for one key expression, and what is cached under
it belongs to that one.
-/

namespace LedgerBabylon

open PolicyNode Exec Parse List

variable {n : UInt16} {type : KeyExpressionType} {template : Bytes} {policy : PolicyNode}
  {rounds : Nat} {isTaproot : Bool}

def PolicyNode.keys (node : PolicyNode) : List KeyExpr := node.keyexprs.map Prod.fst

@[simp] theorem PolicyNode.keys_sh (x : PolicyNode) : (sh x).keys = x.keys := by
  rw [keys, keyexprs, keys]

@[simp] theorem PolicyNode.keys_wsh (x : PolicyNode) : (wsh x).keys = x.keys := by
  rw [keys, keyexprs, keys]

@[simp] theorem PolicyNode.keys_wrapper (flags : Option Miniscript.Typ) (token : WrapperToken)
    (x : PolicyNode) : (wrapper flags token x).keys = x.keys := by
  rw [keys, keyexprs, keys]

/-- The keys of a template are those of its nodes. -/
theorem PolicyNode.keys_eq_flatMap (isTaproot : Bool) (policy : PolicyNode) :
    policy.keys = (policy.subnodes isTaproot).flatMap fun c => c.2.ownKeys := by
  have hlist {isTaproot : Bool} {xs : List PolicyNode}
      (h : ∀ x ∈ xs, x.keys = (x.subnodes isTaproot).flatMap fun c => c.2.ownKeys) :
      (keyexprsList xs).map Prod.fst = (subnodesList isTaproot xs).flatMap fun c => c.2.ownKeys := by
    induction xs with
    | nil => rfl
    | cons x xs ih =>
      obtain ⟨hx, hxs⟩ := forall_mem_cons.mp h
      rw [keyexprsList, subnodesList, map_append, flatMap_append, ih hxs, ← hx]
      rfl
  have htree {tree : PolicyTree PolicyNode}
      (h : ∀ x ∈ tree.leaves, x.keys = (x.subnodes true).flatMap fun c => c.2.ownKeys) :
      (keyexprsTree tree).map Prod.fst = (subnodesTree tree).flatMap fun c => c.2.ownKeys := by
    induction tree with
    | leaf x =>
      rw [keyexprsTree, subnodesTree, ← h x mem_cons_self, map_map]
      rfl
    | branch l r ihl ihr =>
      rw [PolicyTree.leaves, forall_mem_append] at h
      rw [keyexprsTree, subnodesTree, map_append, flatMap_append, ihl h.1, ihr h.2]
  induction policy using PolicyNode.induction generalizing isTaproot with
  | sh x ih | wsh x ih | wrapper _ _ x ih => exact ih isTaproot
  | tr key tree ih =>
    cases tree with
    | none => rfl
    | some tree =>
      have hrest := htree fun x hx => ih tree rfl x hx true
      exact congrArg (key :: ·) hrest
  | constant | withHash | withUint32 => rfl
  | withKey => rfl
  | multisig flags token k keys =>
    simp [PolicyNode.keys, PolicyNode.keyexprs, subnodes, ownKeys, Function.comp_def]
  | withScript2 flags token x y hx hy =>
    rw [subnodes, flatMap_cons, flatMap_append, ← hx, ← hy]
    simp [PolicyNode.keys, PolicyNode.keyexprs, ownKeys]
  | andor flags x y z hx hy hz =>
    rw [subnodes, flatMap_cons, flatMap_append, flatMap_append, ← hx, ← hy, ← hz]
    simp [PolicyNode.keys, PolicyNode.keyexprs, ownKeys]
  | thresh flags k xs ih => exact hlist fun x hx => ih x hx isTaproot

theorem PolicyNode.mem_keys {c : Bool × PolicyNode} {key : KeyExpr} (hc : c ∈ policy.subnodes isTaproot)
    (hkey : key ∈ c.2.ownKeys) : key ∈ policy.keys := by
  rw [policy.keys_eq_flatMap isTaproot]
  exact mem_flatMap.mpr ⟨c, hc, hkey⟩

def NumberedFrom : UInt16 → List KeyExpr → Prop
  | _, [] => True
  | n, key :: rest => key.keyexprIndex = n ∧ NumberedFrom (n + 1) rest

theorem numberedFrom_append {keys keys' : List KeyExpr} : NumberedFrom n (keys ++ keys') ↔
      NumberedFrom n keys ∧ NumberedFrom (n + UInt16.ofNat keys.length) keys' := by
  induction keys generalizing n with
  | nil => simp [NumberedFrom]
  | cons key keys ih =>
    have hnext : n + 1 + UInt16.ofNat keys.length = n + UInt16.ofNat (keys.length + 1) := by
      rw [UInt16.ofNat_add, UInt16.add_assoc, UInt16.add_comm (UInt16.ofNat keys.length)]
      rfl
    rw [cons_append, NumberedFrom, ih, NumberedFrom, length_cons, hnext, and_assoc]

structure Numbers (keys : List KeyExpr) (s s' : ParseState) : Prop where
  fits : ∀ key ∈ keys, key.type.Fits
  numbered : NumberedFrom s.keyExpressionCount keys
  count : s'.keyExpressionCount = s.keyExpressionCount + UInt16.ofNat keys.length
  input : s'.input.length + keys.length ≤ s.input.length

abbrev Unnumbered (s s' : ParseState) : Prop := Numbers [] s s'

namespace Numbers

variable {keys keys' : List KeyExpr} {s s' s'' : ParseState}

theorem quiet (hcount : s'.keyExpressionCount = s.keyExpressionCount)
    (hinput : s'.input.length ≤ s.input.length) : Unnumbered s s' :=
  ⟨by simp, trivial, by simpa using hcount, hinput⟩

theorem append (h : Numbers keys s s') (h' : Numbers keys' s' s'') : Numbers (keys ++ keys') s s'' := by
  refine ⟨forall_mem_append.mpr ⟨h.fits, h'.fits⟩,
    numberedFrom_append.mpr ⟨h.numbered, h.count ▸ h'.numbered⟩, ?_, ?_⟩
  · rw [h'.count, h.count, length_append, UInt16.ofNat_add, UInt16.add_assoc]
  · have hinput := h.input
    have hinput' := h'.input
    rw [length_append]
    omega

theorem after (h : Unnumbered s s') (h' : Numbers keys s' s'') : Numbers keys s s'' := h.append h'

end Numbers

/-- Once `before` has been met, a successful run has met `keys a` in all. -/
def MeetsFrom {α : Type} (before : List KeyExpr) (x : Parse α) (keys : α → List KeyExpr) : Prop :=
  ∀ s0 s a s', Numbers before s0 s → x s = .ok a s' → Numbers (keys a) s0 s'

abbrev Meets {α : Type} (x : Parse α) (keys : α → List KeyExpr) : Prop := MeetsFrom [] x keys

abbrev ReadsNoKey {α : Type} (x : Parse α) : Prop := Meets x fun _ => []

section

variable {α β : Type} {env : ParseEnv} {before : List KeyExpr} {x : Parse α} {f : α → Parse β}
  {keys : α → List KeyExpr} {keys' : β → List KeyExpr}

theorem Meets.of_run (h : ∀ s a s', x s = .ok a s' → Numbers (keys a) s s') : Meets x keys :=
  fun _ _ _ _ h0 hx => h0.after (h _ _ _ hx)

variable {s s' : ParseState}

theorem Meets.run (h : Meets x keys) {a : α} (hx : x s = .ok a s') :
    Numbers (keys a) s s' := h s s a s' (.quiet rfl le_rfl) hx

theorem Meets.bind (hx : Meets x keys) (hf : ∀ a, MeetsFrom (before ++ keys a) (f a) keys') :
    MeetsFrom before (x >>= f) keys' := by
  intro s0 s b s'' h0 h
  obtain ⟨a, s', hxs, hfs⟩ := bind_ok h
  exact hf a s0 s' b s'' (h0.append (hx.run hxs)) hfs

theorem meets_pure {a : α} (h : keys a = before) : MeetsFrom before (pure a) keys := by
  intro s0 s b s' h0 hx
  obtain ⟨rfl, rfl⟩ := pure_ok hx
  rw [h]
  exact h0

theorem meets_fail : MeetsFrom before (fail : Parse α) keys := by
  intro s0 s a s' h0 h
  simp at h

theorem meets_endless : MeetsFrom before (throw .endless : Parse α) keys := by
  intro s0 s a s' h0 h
  simp at h

theorem readsNoKey_get : ReadsNoKey (get : Parse ParseState) := .of_run fun s a s' h => by
  obtain ⟨-, rfl⟩ := get_ok_iff.mp h
  exact .quiet rfl le_rfl

theorem readsNoKey_check (b : Bool) : ReadsNoKey (check b) := .of_run fun s a s' h => by
  obtain ⟨-, rfl⟩ := check_ok_iff.mp h
  exact .quiet rfl le_rfl

theorem readsNoKey_ofOption (o : Option α) : ReadsNoKey (Parse.ofOption o) := .of_run fun s a s' h => by
  obtain ⟨-, rfl⟩ := ofOption_ok_iff.mp h
  exact .quiet rfl le_rfl

theorem readsNoKey_alloc (size : Nat) : ReadsNoKey (alloc env size) := .of_run fun s a s' h => by
  simp only [alloc, bind_ok_iff, get_ok_iff, check_ok_iff, set_ok_iff] at h
  obtain ⟨_, _, ⟨rfl, rfl⟩, _, _, ⟨-, rfl⟩, rfl⟩ := h
  exact .quiet rfl le_rfl

theorem readsNoKey_align : ReadsNoKey (align env) := .of_run fun s a s' h => by
  simp only [align, bind_ok_iff, get_ok_iff] at h
  obtain ⟨_, _, ⟨rfl, rfl⟩, h⟩ := h
  split_ifs at h
  · obtain rfl := set_ok_iff.mp h
    exact .quiet rfl le_rfl
  · obtain ⟨-, rfl⟩ := pure_ok h
    exact .quiet rfl le_rfl

theorem readsNoKey_peek : ReadsNoKey peek := readsNoKey_get.bind fun _ => meets_pure rfl

theorem readsNoKey_readChar : ReadsNoKey readChar := .of_run fun s c s' h => by
  obtain ⟨hinput, hs⟩ := readChar_ok_iff.mp h
  exact .quiet (by rw [hs]) (by rw [hinput]; simp)

theorem readsNoKey_consumeCharacters (expected : Bytes) :
    ReadsNoKey (consumeCharacters expected) := .of_run fun s a s' h => by
  rcases consumeCharacters_ok_iff.mp h with ⟨-, hinput, hs⟩ | ⟨-, -, rfl⟩
  · exact .quiet (by rw [hs]) (by rw [hinput]; simp)
  · exact .quiet rfl le_rfl

theorem readsNoKey_expectCharacter (expected : UInt8) : ReadsNoKey (expectCharacter expected) :=
  (readsNoKey_consumeCharacters _).bind fun _ => readsNoKey_check _

theorem readsNoKey_parseToken : ReadsNoKey parseToken := by
  refine (Meets.of_run fun s a s' h => ?_).bind fun _ => readsNoKey_ofOption _
  simp only [readToken, bind_ok_iff, get_ok_iff, set_ok_iff, pure_ok_iff] at h
  obtain ⟨_, _, ⟨rfl, rfl⟩, _, _, rfl, -, rfl⟩ := h
  exact .quiet rfl (by simp)

theorem readsNoKey_parseUnsignedDecimal (bits : Nat) : ReadsNoKey (parseUnsignedDecimal bits) :=
  .of_run fun s a s' h => by
  simp only [parseUnsignedDecimal, bind_ok_iff, get_ok_iff, ofOption_ok_iff, set_ok_iff, check_ok_iff,
    pure_ok_iff] at h
  obtain ⟨_, _, ⟨rfl, rfl⟩, _, _, ⟨-, rfl⟩, _, _, rfl, _, _, ⟨-, rfl⟩, -, rfl⟩ := h
  exact .quiet rfl (by simp)

theorem readsNoKey_parseInt16 (bits : Nat) : ReadsNoKey (parseInt16 bits) :=
  (readsNoKey_parseUnsignedDecimal bits).bind fun _ =>
    (readsNoKey_check _).bind fun _ => meets_pure rfl

theorem readsNoKey_bufferReadHexHash (n : Nat) : ReadsNoKey (bufferReadHexHash n) :=
  .of_run fun s a s' h => by
  simp only [bufferReadHexHash, bind_ok_iff, get_ok_iff, ofOption_ok_iff, set_ok_iff, check_ok_iff,
    pure_ok_iff] at h
  obtain ⟨_, _, ⟨rfl, rfl⟩, _, _, ⟨-, rfl⟩, _, _, ⟨-, rfl⟩, _, _, rfl, -, rfl⟩ := h
  exact .quiet rfl (by simp)

theorem readsNoKey_parseMusigKeys (rounds : Nat) (keys : List Nat) :
    ReadsNoKey (parseMusigKeys env rounds keys) := by
  induction rounds generalizing keys with
  | zero => exact meets_endless
  | succ rounds ih =>
    refine readsNoKey_readChar.bind fun _ => (readsNoKey_check _).bind fun _ => ?_
    refine (readsNoKey_parseInt16 _).bind fun _ => (readsNoKey_check _).bind fun _ => ?_
    refine readsNoKey_readChar.bind fun c => ?_
    split
    · exact meets_pure rfl
    · exact (readsNoKey_check _).bind fun _ => ih _

theorem readsNoKey_parseMusig (isTaproot : Bool) : ReadsNoKey (parseMusig env isTaproot) := by
  refine (readsNoKey_consumeCharacters _).bind fun _ => (readsNoKey_check _).bind fun _ => ?_
  refine (readsNoKey_check _).bind fun _ => (readsNoKey_check _).bind fun _ => ?_
  refine readsNoKey_get.bind fun _ => (readsNoKey_parseMusigKeys _ _).bind fun _ => ?_
  refine (readsNoKey_check _).bind fun _ => (readsNoKey_alloc _).bind fun _ => ?_
  exact (readsNoKey_alloc _).bind fun _ => meets_pure rfl

theorem readsNoKey_parseDerivationPair : ReadsNoKey (parseDerivationPair env) := by
  refine (readsNoKey_parseUnsignedDecimal _).bind fun _ => (readsNoKey_check _).bind fun _ => ?_
  refine (readsNoKey_expectCharacter _).bind fun _ => ?_
  refine (readsNoKey_parseUnsignedDecimal _).bind fun _ => (readsNoKey_check _).bind fun _ => ?_
  refine (readsNoKey_check _).bind fun _ => (readsNoKey_consumeCharacters _).bind fun _ => ?_
  exact (readsNoKey_check _).bind fun _ => meets_pure rfl

theorem readsNoKey_parseDerivation : ReadsNoKey (parseDerivation env) := by
  unfold parseDerivation
  split
  · exact meets_pure rfl
  · split
    · refine (readsNoKey_expectCharacter _).bind fun _ => readsNoKey_peek.bind fun c => ?_
      split
      · refine (readsNoKey_consumeCharacters _).bind fun _ => ?_
        exact (readsNoKey_check _).bind fun _ => meets_pure rfl
      · split
        · exact readsNoKey_readChar.bind fun _ => readsNoKey_parseDerivationPair
        · exact meets_fail
    · exact meets_fail

theorem readsNoKey_parseWrappers (ctx : ParseContext) : ReadsNoKey (parseWrappers env ctx) := by
  have halloc (letters : Bytes) : ReadsNoKey (letters.forM fun _ => allocStruct env .nodeWithScript) := by
    induction letters with
    | nil => exact meets_pure rfl
    | cons _ letters ih => exact (readsNoKey_alloc _).bind fun _ => ih
  refine readsNoKey_get.bind fun s => ?_
  dsimp only
  split
  · refine (halloc _).bind fun _ => (Meets.of_run fun s a s' h => ?_).bind fun _ => meets_pure rfl
    obtain rfl := modify_ok_iff.mp h
    exact .quiet rfl (by simp)
  · exact meets_pure rfl

theorem parseInt16_lt {bits k : Nat} (h : parseInt16 bits s = .ok k s') : k < 2 ^ 16 := by
  simp only [parseInt16, bind_ok_iff, check_ok_iff, pure_ok_iff, decide_eq_true_eq] at h
  obtain ⟨value, _, -, _, _, ⟨hle, -⟩, rfl, -⟩ := h
  omega

theorem parseMusigKeys_fits {keys keys' : List Nat} (hkeys : (KeyExpressionType.musig keys).Fits)
    (h : parseMusigKeys env rounds keys s = .ok keys' s') : (KeyExpressionType.musig keys').Fits := by
  induction rounds generalizing keys s with
  | zero => simp [parseMusigKeys] at h
  | succ rounds ih =>
    simp only [parseMusigKeys, bind_ok_iff, check_ok_iff, decide_eq_true_eq] at h
    obtain ⟨_, _, -, _, _, -, k, _, hk, _, _, ⟨hroom, -⟩, c, _, -, h⟩ := h
    have hnext : (KeyExpressionType.musig (keys ++ [k])).Fits := by
      have hlen : (keys ++ [k]).length = keys.length + 1 := by simp
      refine ⟨hlen ▸ hroom, forall_mem_append.mpr ⟨hkeys.2, ?_⟩⟩
      exact forall_mem_singleton.mpr (parseInt16_lt hk)
    split_ifs at h
    · obtain ⟨rfl, -⟩ := pure_ok h
      exact hnext
    · obtain ⟨_, _, -, h⟩ := bind_ok h
      exact ih hnext h

theorem parseKey_fits (h : parseKey env isTaproot s = .ok type s') : type.Fits := by
  obtain ⟨c, s1, -, h⟩ := bind_ok h
  split_ifs at h
  · obtain ⟨k, _, hk, h⟩ := bind_ok h
    obtain ⟨rfl, -⟩ := pure_ok h
    exact parseInt16_lt hk
  · simp only [parseMusig, bind_ok_iff, pure_ok_iff] at h
    obtain ⟨_, _, -, _, _, -, _, _, -, _, _, -, _, _, -, keys, _, hkeys, _, _, -, _, _, -, _, _, -, rfl, -⟩ := h
    exact parseMusigKeys_fits ⟨Nat.zero_le _, by simp⟩ hkeys
  · simp at h

theorem parseKey_ok (h : parseKey env isTaproot s = .ok type s') :
    s'.keyExpressionCount = s.keyExpressionCount ∧ s'.input.length + 1 ≤ s.input.length := by
  obtain ⟨c, s1, hchar, h⟩ := bind_ok h
  obtain ⟨hchars, hs1⟩ := readChar_ok_iff.mp hchar
  have hrest : ReadsNoKey (if c = 0x40 then do
      let k ← parseInt16 env.sizeBits
      return KeyExpressionType.normal k
    else if c = 0x6D then parseMusig env isTaproot else fail) := by
    split
    · exact (readsNoKey_parseInt16 _).bind fun _ => meets_pure rfl
    · split
      · exact readsNoKey_parseMusig isTaproot
      · exact meets_fail
  have hquiet := hrest.run h
  have hinput := hquiet.input
  have hcount : s1.keyExpressionCount = s.keyExpressionCount := by rw [hs1]
  refine ⟨by simpa [hcount] using hquiet.count, ?_⟩
  rw [hchars]
  simpa using hinput

theorem meets_parseKeyexpr : Meets (parseKeyexpr env isTaproot) fun key => [key] :=
  .of_run fun s key s' h => by
  simp only [parseKeyexpr, bind_ok_iff, get_ok_iff, set_ok_iff, pure_ok_iff] at h
  obtain ⟨type, s1, htype, derivation, s2, hderivation, _, _, ⟨rfl, rfl⟩, _, _, rfl, rfl, rfl⟩ := h
  obtain ⟨hcount, hinput⟩ := parseKey_ok htype
  have hquiet := readsNoKey_parseDerivation.run hderivation
  have hcount2 : s2.keyExpressionCount = s.keyExpressionCount := by
    simpa [hcount] using hquiet.count
  have hinput2 := hquiet.input
  refine ⟨forall_mem_singleton.mpr (parseKey_fits htype), ⟨hcount2, trivial⟩, by rw [hcount2]; rfl, ?_⟩
  simp only [length_nil, Nat.add_zero] at hinput2
  simp only [length_singleton]
  omega

end

def treeKeys (tree : PolicyTree PolicyNode) : List KeyExpr := (keyexprsTree tree).map Prod.fst

section

variable {env : ParseEnv} {parseChild : Nat → ParseContext → Parse PolicyNode}
  (hchild : ∀ depth ctx, Meets (parseChild (depth + 1) ctx) keys)
  {depth : Nat} {ctx : ParseContext}

include hchild

theorem meets_parseInner : Meets (parseInner env parseChild depth ctx) keys :=
  readsNoKey_align.bind fun _ => hchild depth ctx

theorem meets_parseSh : Meets (parseSh env parseChild depth ctx) keys := by
  refine (readsNoKey_check _).bind fun _ => (readsNoKey_alloc _).bind fun _ => ?_
  exact (meets_parseInner hchild).bind fun script => meets_pure (by simp)

theorem meets_parseWsh : Meets (parseWsh env parseChild depth ctx) keys := by
  refine (readsNoKey_check _).bind fun _ => (readsNoKey_alloc _).bind fun _ => ?_
  exact (meets_parseInner hchild).bind fun script => meets_pure (by simp)

theorem meets_parseAndor : Meets (parseAndor env parseChild depth ctx) keys := by
  refine (readsNoKey_alloc _).bind fun _ => (meets_parseInner hchild).bind fun x => ?_
  refine (readsNoKey_expectCharacter _).bind fun _ => (meets_parseInner hchild).bind fun y => ?_
  refine (readsNoKey_expectCharacter _).bind fun _ => (meets_parseInner hchild).bind fun z => ?_
  refine (readsNoKey_ofOption _).bind fun _ => (readsNoKey_ofOption _).bind fun _ => ?_
  refine (readsNoKey_ofOption _).bind fun _ => (readsNoKey_ofOption _).bind fun _ => meets_pure ?_
  simp [PolicyNode.keys, keyexprs]

theorem meets_parseScript2 {token : Script2Token} :
    Meets (parseScript2 env parseChild depth ctx token) keys := by
  refine (readsNoKey_alloc _).bind fun _ => (meets_parseInner hchild).bind fun x => ?_
  refine (readsNoKey_expectCharacter _).bind fun _ => (meets_parseInner hchild).bind fun y => ?_
  refine (readsNoKey_ofOption _).bind fun _ => (readsNoKey_ofOption _).bind fun _ => ?_
  refine (readsNoKey_ofOption _).bind fun _ => meets_pure ?_
  simp [PolicyNode.keys, keyexprs]

theorem meets_parseThreshChildren {isFirst : Bool} :
    Meets (parseThreshChildren env parseChild depth ctx rounds isFirst) fun children =>
      (keyexprsList (children.map Prod.fst)).map Prod.fst := by
  induction rounds generalizing isFirst with
  | zero => exact meets_endless
  | succ rounds ih =>
    refine (meets_parseInner hchild).bind fun x => (readsNoKey_ofOption _).bind fun _ => ?_
    refine (readsNoKey_check _).bind fun _ => (readsNoKey_consumeCharacters _).bind fun more => ?_
    split
    · refine (readsNoKey_alloc _).bind fun _ => ih.bind fun xs => meets_pure ?_
      simp [keyexprsList, PolicyNode.keys]
    · exact meets_pure (by simp [keyexprsList, PolicyNode.keys])

theorem meets_parseThresh : Meets (parseThresh env parseChild depth ctx) keys := by
  refine (readsNoKey_alloc _).bind fun _ => (readsNoKey_parseInt16 _).bind fun _ => ?_
  refine (readsNoKey_expectCharacter _).bind fun _ => (readsNoKey_check _).bind fun _ => ?_
  refine (readsNoKey_alloc _).bind fun _ => readsNoKey_get.bind fun _ => ?_
  exact (meets_parseThreshChildren hchild).bind fun children => meets_pure rfl

theorem meets_parseTree {levels : Nat} : Meets (parseTree env parseChild levels depth) treeKeys := by
  induction levels generalizing depth with
  | zero => exact meets_fail
  | succ levels ih =>
    refine readsNoKey_get.bind fun _ => (readsNoKey_check _).bind fun _ => ?_
    refine (readsNoKey_alloc _).bind fun _ => readsNoKey_peek.bind fun c => ?_
    refine (readsNoKey_check _).bind fun _ => ?_
    split
    · refine (meets_parseInner hchild).bind fun script => meets_pure ?_
      simp [treeKeys, keyexprsTree, PolicyNode.keys, Function.comp_def]
    · refine readsNoKey_readChar.bind fun _ => readsNoKey_align.bind fun _ => ih.bind fun l => ?_
      refine (readsNoKey_expectCharacter _).bind fun _ => readsNoKey_align.bind fun _ => ?_
      refine ih.bind fun r => (readsNoKey_expectCharacter _).bind fun _ => meets_pure ?_
      simp [treeKeys, keyexprsTree]

theorem meets_parseTr : Meets (parseTr env parseChild depth) keys := by
  have htree : Meets (parseTrTree env parseChild depth) fun tree => tree.elim [] treeKeys := by
    refine readsNoKey_peek.bind fun c => ?_
    split
    · refine readsNoKey_readChar.bind fun _ => readsNoKey_align.bind fun _ => ?_
      exact (meets_parseTree hchild).bind fun tree => meets_pure rfl
    · exact (readsNoKey_check _).bind fun _ => meets_pure rfl
  refine (readsNoKey_check _).bind fun _ => (readsNoKey_alloc _).bind fun _ => ?_
  refine (readsNoKey_alloc _).bind fun _ => meets_parseKeyexpr.bind fun key => ?_
  refine htree.bind fun tree => meets_pure ?_
  cases tree <;> rfl

omit hchild

theorem meets_parseMultisigKeys : Meets (parseMultisigKeys env isTaproot rounds) id := by
  induction rounds with
  | zero => exact meets_endless
  | succ rounds ih =>
    refine readsNoKey_peek.bind fun c => ?_
    split
    · exact meets_pure rfl
    · refine (readsNoKey_expectCharacter _).bind fun _ => (readsNoKey_alloc _).bind fun _ => ?_
      exact meets_parseKeyexpr.bind fun key => ih.bind fun keys => meets_pure rfl

theorem meets_parseMultisig {token : MultisigToken} :
    Meets (parseMultisig env depth ctx token) PolicyNode.keys := by
  refine (readsNoKey_alloc _).bind fun _ => (readsNoKey_check _).bind fun _ => ?_
  refine (readsNoKey_check _).bind fun _ => (readsNoKey_parseInt16 _).bind fun _ => ?_
  refine readsNoKey_align.bind fun _ => readsNoKey_get.bind fun _ => ?_
  refine meets_parseMultisigKeys.bind fun keys => (readsNoKey_check _).bind fun _ => meets_pure ?_
  simp [PolicyNode.keys, PolicyNode.keyexprs, Function.comp_def]

theorem meets_parseWithKey {token : KeyToken} : Meets (parseWithKey env depth ctx token) keys := by
  refine (readsNoKey_alloc _).bind fun _ => (readsNoKey_alloc _).bind fun _ => ?_
  exact (readsNoKey_check _).bind fun _ => meets_parseKeyexpr.bind fun key => meets_pure rfl

theorem meets_parseConstant {token : ConstantToken} : Meets (parseConstant env token) keys :=
  (readsNoKey_alloc _).bind fun _ => meets_pure rfl

theorem meets_parseHash {token : HashToken} : Meets (parseHash env token) keys := by
  unfold parseHash
  split
  all_goals
    refine (readsNoKey_alloc _).bind fun _ => ?_
    exact (readsNoKey_bufferReadHexHash _).bind fun _ => meets_pure rfl

theorem meets_parseUint32 {token : Uint32Token} : Meets (parseUint32 env token) keys := by
  refine (readsNoKey_alloc _).bind fun _ => (readsNoKey_parseUnsignedDecimal _).bind fun _ => ?_
  exact (readsNoKey_check _).bind fun _ => meets_pure rfl

include hchild in
theorem meets_parseFragment {token : Token} : Meets (parseFragment env parseChild depth ctx token) keys := by
  unfold parseFragment
  split
  · exact meets_parseConstant
  · have harguments : Meets (parseArguments env parseChild depth ctx token) keys := by
      cases token with
      | sh => exact meets_parseSh hchild
      | wsh => exact meets_parseWsh hchild
      | tr => exact meets_parseTr hchild
      | andor => exact meets_parseAndor hchild
      | thresh => exact meets_parseThresh hchild
      | constant token => exact meets_parseConstant
      | hash token => exact meets_parseHash
      | key token => exact meets_parseWithKey
      | uint32 token => exact meets_parseUint32
      | multisig token => exact meets_parseMultisig
      | script2 token => exact meets_parseScript2 hchild
    refine (readsNoKey_expectCharacter _).bind fun _ => harguments.bind fun node => ?_
    exact (readsNoKey_expectCharacter _).bind fun _ => meets_pure (by simp)

theorem meets_applyWrappers {wrappers : List WrapperToken} {inner : PolicyNode} :
    MeetsFrom inner.keys (applyWrappers isTaproot wrappers inner) keys := by
  induction wrappers with
  | nil => exact meets_pure rfl
  | cons token wrappers ih =>
    intro s0 s node s' h0 h
    obtain ⟨script, s1, hscript, h⟩ := bind_ok h
    have hflags : MeetsFrom script.keys (do
        let x ← miniscriptFlags script
        let flags ← Parse.ofOption (wrapperFlags isTaproot token x)
        return wrapper (some flags) token script) keys :=
      (readsNoKey_ofOption _).bind fun _ => (readsNoKey_ofOption _).bind fun _ => meets_pure (by simp)
    exact hflags _ _ _ _ (ih _ _ _ _ h0 hscript) h

end

theorem parseScript_numbers {env : ParseEnv} {fuel depth : Nat} {ctx : ParseContext}
    {node : PolicyNode} (h : parseScript env fuel depth ctx s = .ok node s')
    (hcount : depth = 0 → s.keyExpressionCount = 0) : Numbers node.keys s s' := by
  induction fuel generalizing depth ctx s node s' with
  | zero => simp [parseScript] at h
  | succ fuel ih =>
    obtain ⟨_, s1, hreset, h⟩ := bind_ok h
    have hreset : Unnumbered s s1 := by
      unfold resetCount at hreset
      split_ifs at hreset with hdepth
      · obtain rfl := modify_ok_iff.mp hreset
        exact .quiet (hcount hdepth).symm le_rfl
      · obtain ⟨-, rfl⟩ := pure_ok hreset
        exact .quiet rfl le_rfl
    have hchild (depth : Nat) (ctx : ParseContext) : Meets (parseScript env fuel (depth + 1) ctx) keys :=
      .of_run fun _ _ _ h => ih h (by simp)
    refine (?_ : MeetsFrom [] _ PolicyNode.keys) s s1 node s' hreset h
    refine (readsNoKey_parseWrappers _).bind fun wrappers => readsNoKey_parseToken.bind fun token => ?_
    refine (readsNoKey_check _).bind fun _ => (meets_parseFragment hchild).bind fun inner => ?_
    have hend : ReadsNoKey (checkEnd depth) := readsNoKey_get.bind fun _ => readsNoKey_check _
    refine hend.bind fun _ => ?_
    simpa using meets_applyWrappers

theorem NumberedFrom.getElem {keys : List KeyExpr} (h : NumberedFrom n keys) {i : Nat}
    {key : KeyExpr} (hi : keys[i]? = some key) : key.keyexprIndex = n + UInt16.ofNat i := by
  induction keys generalizing n i with
  | nil => simp at hi
  | cons first keys ih =>
    cases i with
    | zero =>
      obtain rfl : first = key := by simpa using hi
      simpa using h.1
    | succ i =>
      rw [ih h.2 (by simpa using hi), UInt16.ofNat_add, UInt16.add_assoc, UInt16.add_comm (UInt16.ofNat i)]
      rfl

def PolicyNode.Numbered (policy : PolicyNode) : Prop :=
  ∀ key ∈ policy.keys, ∀ key' ∈ policy.keys, key.keyexprIndex = key'.keyexprIndex → key = key'

theorem parseDescriptorTemplate_numbers {env : ParseEnv}
    (h : parseDescriptorTemplate env template = some policy) :
    NumberedFrom 0 policy.keys ∧ policy.keys.length ≤ template.length ∧
      ∀ key ∈ policy.keys, key.type.Fits := by
  simp only [parseDescriptorTemplate] at h
  split_ifs at h
  have hnumbers := parseScript_numbers (ok_of_returned? h) fun _ => rfl
  have hinput := hnumbers.input
  dsimp only at hinput
  exact ⟨hnumbers.numbered, by omega, hnumbers.fits⟩

/-- **The key expressions of a template that is not too long have different numbers.** -/
theorem parseDescriptorTemplate_numbered {env : ParseEnv}
    (h : parseDescriptorTemplate env template = some policy) (hlen : template.length < 65536) :
    policy.Numbered := by
  obtain ⟨hnumbers, hinput, -⟩ := parseDescriptorTemplate_numbers h
  intro key hkey key' hkey' heq
  obtain ⟨i, hi, rfl⟩ := mem_iff_getElem.mp hkey
  obtain ⟨j, hj, rfl⟩ := mem_iff_getElem.mp hkey'
  rw [hnumbers.getElem (getElem?_eq_getElem hi), hnumbers.getElem (getElem?_eq_getElem hj)] at heq
  have hnat := congrArg UInt16.toNat heq
  simp only [UInt16.toNat_add, UInt16.toNat_ofNat', UInt16.toNat_zero] at hnat
  obtain rfl : i = j := by omega
  rfl

/-- A parsed template without a musig expression before another key is read as it was written. -/
theorem parseDescriptorTemplate_asRead {env : ParseEnv}
    (h : parseDescriptorTemplate env template = some policy) (hlast : policy.MusigLast)
    (around : List KeyExpr → Memory) : policy.asRead around = policy :=
  asRead_eq around fun c hc =>
    ⟨hlast c hc, fun key hkey => (parseDescriptorTemplate_numbers h).2.2 key (mem_keys hc hkey)⟩

end LedgerBabylon
