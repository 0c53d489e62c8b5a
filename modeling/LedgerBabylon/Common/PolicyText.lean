import LedgerBabylon.Common.WrittenNumbers

/-!
# The text of a template

How an accepted template is written: the tokens, parentheses and commas around its numbers, keys and
hashes. The parser reads its input as such a text and lays the nodes out in its output buffer one after
the other. What the written numbers are in the tree is left to the numbers themselves.
-/

namespace LedgerBabylon

open Exec Parse PolicyNode List

variable {k rounds : Nat} {isTaproot : Bool}

inductive NumberKind where
  | keyIndex
  | derivation
  | threshold
  | locktime
  deriving DecidableEq

def NumberKind.InRange : NumberKind → Nat → Prop
  | .keyIndex, n | .threshold, n => n ≤ 0x7FFF
  | .derivation, n => n ≤ 0x80000000
  | .locktime, n => 1 ≤ n ∧ n < 2 ^ 31

structure WrittenNumber (bits : Nat) where
  kind : NumberKind
  digits : Bytes
  value : UInt32
  readAs : ReadAs bits digits value
  inRange : kind.InRange value.toNat

variable {bits : Nat}

inductive KeyText : Bytes → KeyExpressionType → List (WrittenNumber bits) → Prop
  | normal (n : WrittenNumber bits) : n.kind = .keyIndex →
      KeyText (0x40 :: n.digits) (.normal n.value.toNat) [n]
  | musig (ns : List (WrittenNumber bits)) : (∀ n ∈ ns, n.kind = .keyIndex) →
      KeyText (text "musig(" ++ [0x2C].intercalate (ns.map fun n => 0x40 :: n.digits) ++ [0x29])
        (.musig (ns.map fun n => n.value.toNat)) ns

inductive DerivationText : Nat → Bytes → UInt32 × UInt32 → List (WrittenNumber bits) → Prop
  | fixed : DerivationText 1 [] (0, 1) []
  | short : DerivationText 2 (text "/**") (0, 1) []
  | pair (m n : WrittenNumber bits) : m.kind = .derivation → n.kind = .derivation →
      DerivationText 2 (text "/<" ++ m.digits ++ 0x3B :: n.digits ++ text ">/*") (m.value, n.value) [m, n]

inductive KeyexprText (version : Nat) : Bytes → KeyExpr → List (WrittenNumber bits) → Prop
  | mk {t t' : Bytes} {key : KeyExpr} {ns ns' : List (WrittenNumber bits)} :
      KeyText t key.type ns → DerivationText version t' (key.numFirst, key.numSecond) ns' →
      KeyexprText version (t ++ t') key (ns ++ ns')

inductive Wraps : Bytes → PolicyNode → PolicyNode → Prop
  | nil {node : PolicyNode} : Wraps [] node node
  | cons {c : UInt8} {letters : Bytes} {token : WrapperToken} {flags : Option Miniscript.Typ}
      {node script : PolicyNode} : wrapperToken c = some token → Wraps letters node script →
      Wraps (c :: letters) node (.wrapper flags token script)

structure Written (bits : Nat) (α : Type) where
  text : Bytes
  value : α
  numbers : List (WrittenNumber bits)

def commaTexts {α : Type} (args : List (Written bits α)) : Bytes := args.flatMap fun arg => 0x2C :: arg.text

mutual

inductive ScriptText {bits : Nat} (version : Nat) : Bytes → PolicyNode → List (WrittenNumber bits) → Prop
  | plain {t : Bytes} {node : PolicyNode} {ns : List (WrittenNumber bits)} :
      FragmentText version t node ns → ScriptText version t node ns
  | wrapped {letters t : Bytes} {node script : PolicyNode} {ns : List (WrittenNumber bits)} :
      Wraps letters node script → FragmentText version t node ns →
      ScriptText version (letters ++ 0x3A :: t) script ns

inductive FragmentText {bits : Nat} (version : Nat) : Bytes → PolicyNode → List (WrittenNumber bits) → Prop
  | constant {word : Bytes} {token : ConstantToken} {flags : Option Miniscript.Typ} :
      knownTokens.lookup word = some (.constant token) →
      FragmentText version word (.constant flags token) []
  | call {word t : Bytes} {token : Token} {node : PolicyNode} {ns : List (WrittenNumber bits)} :
      knownTokens.lookup word = some token → ArgumentsText version token t node ns →
      FragmentText version (word ++ 0x28 :: t ++ [0x29]) node ns

inductive ArgumentsText {bits : Nat} (version : Nat) :
    Token → Bytes → PolicyNode → List (WrittenNumber bits) → Prop
  | sh {t : Bytes} {x : PolicyNode} {ns : List (WrittenNumber bits)} :
      ScriptText version t x ns → ArgumentsText version .sh t (.sh x) ns
  | wsh {t : Bytes} {x : PolicyNode} {ns : List (WrittenNumber bits)} :
      ScriptText version t x ns → ArgumentsText version .wsh t (.wsh x) ns
  | withHash {token : HashToken} {flags : Option Miniscript.Typ} {h : Bytes} :
      ArgumentsText version (.hash token) (hexText h) (.withHash flags token h) []
  | withKey {t : Bytes} {token : KeyToken} {flags : Option Miniscript.Typ} {key : KeyExpr}
      {ns : List (WrittenNumber bits)} : KeyexprText version t key ns →
      ArgumentsText version (.key token) t (.withKey flags token key) ns
  | withUint32 {token : Uint32Token} {flags : Option Miniscript.Typ} (n : WrittenNumber bits) :
      n.kind = .locktime →
      ArgumentsText version (.uint32 token) n.digits (.withUint32 flags token n.value) [n]
  | multisig {token : MultisigToken} {flags : Option Miniscript.Typ} (k : WrittenNumber bits)
      (keys : List (Written bits KeyExpr)) : k.kind = .threshold →
      (∀ key ∈ keys, KeyexprText version key.text key.value key.numbers) →
      ArgumentsText version (.multisig token) (k.digits ++ commaTexts keys)
        (.multisig flags token k.value.toNat (keys.map Written.value))
        (k :: keys.flatMap Written.numbers)
  | andor {tx ty tz : Bytes} {flags : Option Miniscript.Typ} {x y z : PolicyNode}
      {nx ny nz : List (WrittenNumber bits)} : ScriptText version tx x nx → ScriptText version ty y ny →
      ScriptText version tz z nz →
      ArgumentsText version .andor (tx ++ 0x2C :: ty ++ 0x2C :: tz) (.andor flags x y z) (nx ++ ny ++ nz)
  | withScript2 {tx ty : Bytes} {token : Script2Token} {flags : Option Miniscript.Typ}
      {x y : PolicyNode} {nx ny : List (WrittenNumber bits)} : ScriptText version tx x nx →
      ScriptText version ty y ny →
      ArgumentsText version (.script2 token) (tx ++ 0x2C :: ty) (.withScript2 flags token x y) (nx ++ ny)
  | thresh {flags : Option Miniscript.Typ} (k : WrittenNumber bits)
      (scripts : List (Written bits PolicyNode)) : k.kind = .threshold →
      (∀ x ∈ scripts, ScriptText version x.text x.value x.numbers) →
      ArgumentsText version .thresh (k.digits ++ commaTexts scripts)
        (.thresh flags k.value.toNat (scripts.map Written.value))
        (k :: scripts.flatMap Written.numbers)
  | tr {t : Bytes} {key : KeyExpr} {ns : List (WrittenNumber bits)} : KeyexprText version t key ns →
      ArgumentsText version .tr t (.tr key none) ns
  | trTree {t t' : Bytes} {key : KeyExpr} {tree : PolicyTree PolicyNode}
      {ns ns' : List (WrittenNumber bits)} : KeyexprText version t key ns → TreeText version t' tree ns' →
      ArgumentsText version .tr (t ++ 0x2C :: t') (.tr key (some tree)) (ns ++ ns')

inductive TreeText {bits : Nat} (version : Nat) :
    Bytes → PolicyTree PolicyNode → List (WrittenNumber bits) → Prop
  | leaf {t : Bytes} {x : PolicyNode} {ns : List (WrittenNumber bits)} :
      ScriptText version t x ns → TreeText version t (.leaf x) ns
  | branch {tl tr : Bytes} {l r : PolicyTree PolicyNode} {nl nr : List (WrittenNumber bits)} :
      TreeText version tl l nl → TreeText version tr r nr →
      TreeText version (0x7B :: tl ++ 0x2C :: tr ++ [0x7D]) (.branch l r) (nl ++ nr)

end

def padded (a : Nat) : Nat := a + (4 - a % 4) % 4

namespace ParseEnv

variable (env : ParseEnv)

def after (kind : PolicyStruct) (a : Nat) : Nat := padded a + env.sizeof kind

def aligned (a : Nat) : Nat := if padded a ≤ env.outLen then padded a else a

end ParseEnv

section

variable (env : ParseEnv)

def KeyExpressionType.layout : KeyExpressionType → Nat → Nat
  | .normal _, a | .unreadable, a => a
  | .musig keyIndexes, a => padded (env.after .pointer a) + env.sizeof .uint16 * keyIndexes.length

def KeyExpr.layout (key : KeyExpr) (a : Nat) : Nat := key.type.layout env (env.after .keyexpr a)

def keysLayout : List KeyExpr → Nat → Nat
  | [], a => a
  | key :: keys, a => keysLayout keys (key.layout env a)

def hashStruct : HashToken → PolicyStruct
  | .sha256 | .hash256 => .nodeWithHash256
  | .ripemd160 | .hash160 => .nodeWithHash160

mutual

def PolicyNode.layout : PolicyNode → Nat → Nat
  | .sh x, a | .wsh x, a => x.layout (env.aligned (env.after .nodeWithScript a))
  | .tr key tree, a => trLayout tree (key.layout env (env.after .nodeTr a))
  | .constant _ _, a => env.after .nodeConstant a
  | .withHash _ token _, a => env.after (hashStruct token) a
  | .withKey _ _ key, a => key.layout env (env.after .nodeWithKey a)
  | .withUint32 _ _ _, a => env.after .nodeWithUint32 a
  | .multisig _ _ _ keys, a => keysLayout env keys (env.aligned (env.after .nodeMultisig a))
  | .andor _ x y z, a =>
    z.layout (env.aligned (y.layout (env.aligned (x.layout (env.aligned (env.after .nodeWithScript3 a))))))
  | .withScript2 _ _ x y, a => y.layout (env.aligned (x.layout (env.aligned (env.after .nodeWithScript2 a))))
  | .thresh _ _ xs, a => scriptsLayout xs (env.after .nodeThresh a)
  | .wrapper _ _ x, a => x.layout (env.after .nodeWithScript a)

def scriptsLayout : List PolicyNode → Nat → Nat
  | [], a => a
  | x :: xs, a => scriptsLayout xs (x.layout (env.aligned (env.after .scriptlist a)))

def treeLayout : PolicyTree PolicyNode → Nat → Nat
  | .leaf x, a => x.layout (env.aligned (env.after .tree a))
  | .branch l r, a => treeLayout r (env.aligned (treeLayout l (env.aligned (env.after .tree a))))

def trLayout : Option (PolicyTree PolicyNode) → Nat → Nat
  | none, a => a
  | some tree, a => treeLayout tree (env.aligned a)

end

end

structure Moves (env : ParseEnv) (t : Bytes) (f : Nat → Nat) (s s' : ParseState) : Prop where
  input : s.input = t ++ s'.input
  offset : s'.outOffset = f s.outOffset
  le : s.outOffset ≤ env.outLen → s'.outOffset ≤ env.outLen

namespace Moves

variable {env : ParseEnv} {t t' : Bytes} {f g : Nat → Nat} {s s' s'' : ParseState}

theorem trans (h : Moves env t f s s') (h' : Moves env t' g s' s'') :
    Moves env (t ++ t') (fun a => g (f a)) s s'' :=
  ⟨by rw [h.input, h'.input, append_assoc], by rw [h'.offset, h.offset], fun hs => h'.le (h.le hs)⟩

theorem congr (h : Moves env t f s s') (ht : t = t') (hf : ∀ a, f a = g a) : Moves env t' g s s' :=
  ⟨ht ▸ h.input, h.offset.trans (hf _), h.le⟩

theorem read (hinput : s.input = t ++ s'.input) (hs : s' = { s with input := s'.input }) :
    Moves env t id s s' :=
  ⟨hinput, by rw [hs]; rfl, fun h => by rw [hs]; exact h⟩

end Moves

section

variable {c : UInt8} {type : KeyExpressionType} {derivation : UInt32 × UInt32}

variable {env : ParseEnv} {s s' : ParseState} {u : Unit}

theorem moves_alloc {size : Nat} (h : alloc env size s = .ok u s') :
    Moves env [] (fun a => padded a + size) s s' := by
  simp only [alloc, bind_ok_iff, get_ok_iff, check_ok_iff, set_ok_iff, decide_eq_true_eq] at h
  obtain ⟨_, _, ⟨rfl, rfl⟩, _, _, ⟨hle, rfl⟩, rfl⟩ := h
  exact ⟨rfl, rfl, fun _ => hle⟩

theorem moves_allocStruct {kind : PolicyStruct} (h : allocStruct env kind s = .ok u s') :
    Moves env [] (env.after kind) s s' := moves_alloc h

theorem moves_align (h : align env s = .ok u s') : Moves env [] env.aligned s s' := by
  simp only [align, bind_ok_iff, get_ok_iff] at h
  obtain ⟨_, _, ⟨rfl, rfl⟩, h⟩ := h
  split_ifs at h with hle
  · obtain rfl := set_ok_iff.mp h
    exact ⟨rfl, (if_pos hle).symm, fun _ => hle⟩
  · obtain ⟨-, rfl⟩ := pure_ok h
    exact ⟨rfl, (if_neg hle).symm, id⟩

variable (env) in
theorem moves_expectCharacter (h : expectCharacter c s = .ok u s') : Moves env [c] id s s' := by
  obtain ⟨hinput, hs⟩ := expectCharacter_ok_iff.mp h
  exact .read hinput hs

variable (env) in
theorem moves_readChar (h : readChar s = .ok c s') : Moves env [c] id s s' := by
  obtain ⟨hinput, hs⟩ := readChar_ok_iff.mp h
  exact .read hinput hs

theorem peek_ok {c : Option UInt8} (h : peek s = .ok c s') : c = s.input.head? ∧ s' = s := by
  simp only [peek, bind_ok_iff, get_ok_iff, pure_ok_iff] at h
  obtain ⟨_, _, ⟨rfl, rfl⟩, rfl, rfl⟩ := h
  exact ⟨rfl, rfl⟩

variable (env) in
theorem moves_consume {expected : Bytes} (h : consumeCharacters expected s = .ok true s') :
    Moves env expected id s s' := by
  rcases consumeCharacters_ok_iff.mp h with ⟨-, hinput, hs⟩ | ⟨hfound, -⟩
  · exact .read hinput hs
  · cases hfound

variable (hbits : 32 ≤ env.sizeBits)

include hbits

theorem parseUnsignedDecimal_text {value : UInt32} (h : parseUnsignedDecimal env.sizeBits s = .ok value s') :
    ∃ digits, ReadAs env.sizeBits digits value ∧ Moves env digits id s s' := by
  obtain ⟨digits, hinput, -, hread, hs⟩ := (parseUnsignedDecimal_ok_iff hbits).mp h
  exact ⟨digits, hread, .read hinput hs⟩

theorem parseInt16_text {kind : NumberKind} (hkind : kind = .keyIndex ∨ kind = .threshold)
    (h : parseInt16 env.sizeBits s = .ok k s') :
    ∃ n : WrittenNumber env.sizeBits, n.kind = kind ∧ n.value.toNat = k ∧ Moves env n.digits id s s' := by
  simp only [parseInt16, bind_ok_iff, check_ok_iff, pure_ok_iff, decide_eq_true_eq] at h
  obtain ⟨value, _, hvalue, _, _, ⟨hle, rfl⟩, rfl, rfl⟩ := h
  obtain ⟨digits, hread, hmoves⟩ := parseUnsignedDecimal_text hbits hvalue
  have hrange : kind.InRange value.toNat := by
    rcases hkind with rfl | rfl
    all_goals exact hle
  exact ⟨⟨kind, digits, value, hread, hrange⟩, rfl, rfl, hmoves⟩

theorem parseMusigKeys_text {keys keys' : List Nat} (h : parseMusigKeys env rounds keys s = .ok keys' s') :
    ∃ ns : List (WrittenNumber env.sizeBits), ns ≠ [] ∧ (∀ n ∈ ns, n.kind = .keyIndex) ∧
      keys' = keys ++ ns.map (fun n => n.value.toNat) ∧
      Moves env ([0x2C].intercalate (ns.map fun n => 0x40 :: n.digits) ++ [0x29]) id s s' := by
  induction rounds generalizing keys s with
  | zero => simp [parseMusigKeys] at h
  | succ rounds ih =>
    simp only [parseMusigKeys, bind_ok_iff, check_ok_iff, decide_eq_true_eq] at h
    obtain ⟨_, _, hat, _, _, ⟨rfl, rfl⟩, k, _, hk, _, _, ⟨-, rfl⟩, c, _, hc, h⟩ := h
    obtain ⟨n, hkind, rfl, hn⟩ := parseInt16_text hbits (.inl rfl) hk
    have hfirst := ((moves_readChar env hat).trans hn).trans (moves_readChar env hc)
    split_ifs at h with hclose
    · obtain ⟨rfl, rfl⟩ := pure_ok h
      subst hclose
      exact ⟨[n], by simp, by simpa using hkind, rfl, hfirst.congr (by simp) fun _ => rfl⟩
    · simp only [bind_ok_iff, check_ok_iff, decide_eq_true_eq] at h
      obtain ⟨_, _, ⟨rfl, rfl⟩, h⟩ := h
      obtain ⟨ns, hne, hkinds, rfl, hrest⟩ := ih h
      obtain ⟨n', ns, rfl⟩ := exists_cons_of_ne_nil hne
      refine ⟨n :: n' :: ns, by simp, forall_mem_cons.mpr ⟨hkind, hkinds⟩, by simp,
        (hfirst.trans hrest).congr ?_ fun _ => rfl⟩
      simp [intercalate]

theorem parseMusig_text (h : parseMusig env isTaproot s = .ok type s') :
    ∃ t, ∃ ns : List (WrittenNumber env.sizeBits), KeyText (0x6D :: t) type ns ∧
      Moves env t (type.layout env) s s' := by
  simp only [parseMusig, bind_ok_iff, check_ok_iff, get_ok_iff, pure_ok_iff] at h
  obtain ⟨found, _, hfound, _, _, ⟨rfl, rfl⟩, _, _, ⟨-, rfl⟩, _, _, ⟨-, rfl⟩, _, _, ⟨rfl, rfl⟩, keys, _, hkeys, _, _,
    ⟨-, rfl⟩, _, _, hinfo, _, _, hindexes, rfl, rfl⟩ := h
  obtain ⟨ns, -, hkinds, rfl, hns⟩ := parseMusigKeys_text hbits hkeys
  have hmoves := (((moves_consume env hfound).trans hns).trans (moves_allocStruct hinfo)).trans
    (moves_alloc hindexes)
  refine ⟨_, ns, ?_, hmoves.congr rfl fun _ => rfl⟩
  simpa [text] using KeyText.musig ns hkinds

theorem parseKey_text (h : parseKey env isTaproot s = .ok type s') :
    ∃ t, ∃ ns : List (WrittenNumber env.sizeBits), KeyText t type ns ∧
      Moves env t (type.layout env) s s' := by
  obtain ⟨c, s1, hc, h⟩ := bind_ok h
  split_ifs at h with hat hm
  · simp only [bind_ok_iff, pure_ok_iff] at h
    obtain ⟨k, _, hk, rfl, rfl⟩ := h
    obtain ⟨n, hkind, rfl, hn⟩ := parseInt16_text hbits (.inl rfl) hk
    subst hat
    exact ⟨_, [n], .normal n hkind, ((moves_readChar env hc).trans hn).congr rfl fun _ => rfl⟩
  · obtain ⟨t, ns, htext, hmoves⟩ := parseMusig_text hbits h
    subst hm
    exact ⟨_, ns, htext, ((moves_readChar env hc).trans hmoves).congr rfl fun _ => rfl⟩
  · simp at h

theorem parseDerivationPair_text (h : parseDerivationPair env s = .ok derivation s') :
    ∃ m n : WrittenNumber env.sizeBits, m.kind = .derivation ∧ n.kind = .derivation ∧
      derivation = (m.value, n.value) ∧ Moves env (m.digits ++ 0x3B :: n.digits ++ text ">/*") id s s' := by
  simp only [parseDerivationPair, bind_ok_iff, check_ok_iff, pure_ok_iff, decide_eq_true_eq] at h
  obtain ⟨first, _, hfirst, _, _, ⟨hle, rfl⟩, _, _, hsemicolon, second, _, hsecond, _, _, ⟨hle', rfl⟩, _, _,
    ⟨-, rfl⟩, found, _, hfound, _, _, ⟨rfl, rfl⟩, rfl, rfl⟩ := h
  obtain ⟨digits, hread, hmoves⟩ := parseUnsignedDecimal_text hbits hfirst
  obtain ⟨digits', hread', hmoves'⟩ := parseUnsignedDecimal_text hbits hsecond
  have hall := ((hmoves.trans (moves_expectCharacter env hsemicolon)).trans hmoves').trans
    (moves_consume env hfound)
  exact ⟨⟨.derivation, digits, first, hread, hle⟩, ⟨.derivation, digits', second, hread', hle'⟩, rfl, rfl, rfl,
    hall.congr (by simp) fun _ => rfl⟩

theorem parseDerivation_text (h : parseDerivation env s = .ok derivation s') :
    ∃ t, ∃ ns : List (WrittenNumber env.sizeBits), DerivationText env.version t derivation ns ∧
      Moves env t id s s' := by
  unfold parseDerivation at h
  split_ifs at h with hfirst hsecond
  · obtain ⟨rfl, rfl⟩ := pure_ok h
    rw [hfirst]
    exact ⟨[], [], .fixed, .read rfl rfl⟩
  · rw [hsecond]
    simp only [bind_ok_iff] at h
    obtain ⟨_, s1, hslash, c, s2, hpeek, h⟩ := h
    obtain ⟨hc, rfl⟩ := peek_ok hpeek
    split_ifs at h with hstar hpair
    · simp only [bind_ok_iff, check_ok_iff, pure_ok_iff] at h
      obtain ⟨found, _, hfound, _, _, ⟨rfl, rfl⟩, rfl, rfl⟩ := h
      exact ⟨_, [], .short, (moves_expectCharacter env hslash).trans (moves_consume env hfound)⟩
    · obtain ⟨bracket, s3, hopen, h⟩ := bind_ok h
      obtain ⟨m, n, hm, hn, rfl, hmoves⟩ := parseDerivationPair_text hbits h
      obtain rfl : bracket = 0x3C := by
        rw [hc, (readChar_ok_iff.mp hopen).1] at hpair
        exact Option.some.inj hpair
      have hall := ((moves_expectCharacter env hslash).trans (moves_readChar env hopen)).trans hmoves
      exact ⟨_, [m, n], .pair m n hm hn, hall.congr (by simp [text]) fun _ => rfl⟩
    · simp at h
  · simp at h

theorem parseKeyexpr_text {key : KeyExpr} (h : parseKeyexpr env isTaproot s = .ok key s') :
    ∃ t, ∃ ns : List (WrittenNumber env.sizeBits), KeyexprText env.version t key ns ∧
      Moves env t (key.type.layout env) s s' := by
  simp only [parseKeyexpr, bind_ok_iff, get_ok_iff, set_ok_iff, pure_ok_iff] at h
  obtain ⟨type, _, htype, derivation, s2, hderivation, _, _, ⟨rfl, rfl⟩, _, _, rfl, rfl, rfl⟩ := h
  obtain ⟨t, ns, hkey, hmoves⟩ := parseKey_text hbits htype
  obtain ⟨t', ns', hpair, hmoves'⟩ := parseDerivation_text hbits hderivation
  have hcount : Moves env [] id s2 { s2 with keyExpressionCount := s2.keyExpressionCount + 1 } :=
    ⟨rfl, rfl, id⟩
  exact ⟨t ++ t', ns ++ ns', .mk hkey hpair, ((hmoves.trans hmoves').trans hcount).congr (by simp) fun _ => rfl⟩

end

variable {env : ParseEnv} (hbits : 32 ≤ env.sizeBits) {parseChild : Nat → ParseContext → Parse PolicyNode}

def ReadsScript (env : ParseEnv) (node : PolicyNode) (s s' : ParseState) : Prop :=
  ∃ t, ∃ ns : List (WrittenNumber env.sizeBits), ScriptText env.version t node ns ∧
    Moves env t (node.layout env) s s'

def ReadsArguments (env : ParseEnv) (token : Token) (node : PolicyNode) (s s' : ParseState) : Prop :=
  ∃ t, ∃ ns : List (WrittenNumber env.sizeBits), ArgumentsText env.version token t node ns ∧
    Moves env t (node.layout env) s s'

variable (hchild : ∀ depth ctx s node s', parseChild depth ctx s = .ok node s' → ReadsScript env node s s')
  {depth : Nat} {ctx : ParseContext} {s s' : ParseState} {node : PolicyNode}

section

include hchild

theorem parseInner_text (h : parseInner env parseChild depth ctx s = .ok node s') :
    ∃ t, ∃ ns : List (WrittenNumber env.sizeBits), ScriptText env.version t node ns ∧
      Moves env t (fun a => node.layout env (env.aligned a)) s s' := by
  obtain ⟨_, s1, halign, h⟩ := bind_ok h
  obtain ⟨t, ns, htext, hmoves⟩ := hchild _ _ _ _ _ h
  exact ⟨t, ns, htext, (moves_align halign).trans hmoves⟩

theorem parseSh_text (h : parseSh env parseChild depth ctx s = .ok node s') :
    ReadsArguments env .sh node s s' := by
  simp only [parseSh, bind_ok_iff, check_ok_iff, pure_ok_iff] at h
  obtain ⟨_, _, ⟨-, rfl⟩, _, _, halloc, x, _, hx, rfl, rfl⟩ := h
  obtain ⟨t, ns, htext, hmoves⟩ := parseInner_text hchild hx
  exact ⟨t, ns, .sh htext, ((moves_allocStruct halloc).trans hmoves).congr rfl fun _ => by
    rw [layout]⟩

theorem parseWsh_text (h : parseWsh env parseChild depth ctx s = .ok node s') :
    ReadsArguments env .wsh node s s' := by
  simp only [parseWsh, bind_ok_iff, check_ok_iff, pure_ok_iff] at h
  obtain ⟨_, _, ⟨-, rfl⟩, _, _, halloc, x, _, hx, rfl, rfl⟩ := h
  obtain ⟨t, ns, htext, hmoves⟩ := parseInner_text hchild hx
  exact ⟨t, ns, .wsh htext, ((moves_allocStruct halloc).trans hmoves).congr rfl fun _ => by
    rw [layout]⟩

theorem parseAndor_text (h : parseAndor env parseChild depth ctx s = .ok node s') :
    ReadsArguments env .andor node s s' := by
  simp only [parseAndor, miniscriptFlags, bind_ok_iff, ofOption_ok_iff, pure_ok_iff] at h
  obtain ⟨_, _, halloc, x, _, hx, _, _, hcomma, y, _, hy, _, _, hcomma', z, _, hz, _, _, ⟨-, rfl⟩, _, _,
    ⟨-, rfl⟩, _, _, ⟨-, rfl⟩, _, _, ⟨-, rfl⟩, rfl, rfl⟩ := h
  obtain ⟨tx, nx, hx, hmx⟩ := parseInner_text hchild hx
  obtain ⟨ty, ny, hy, hmy⟩ := parseInner_text hchild hy
  obtain ⟨tz, nz, hz, hmz⟩ := parseInner_text hchild hz
  have hall := (((((moves_allocStruct halloc).trans hmx).trans (moves_expectCharacter env hcomma)).trans
    hmy).trans (moves_expectCharacter env hcomma')).trans hmz
  exact ⟨_, _, .andor hx hy hz, hall.congr (by simp) fun _ => by rw [layout]; rfl⟩

theorem parseScript2_text {token : Script2Token}
    (h : parseScript2 env parseChild depth ctx token s = .ok node s') :
    ReadsArguments env (.script2 token) node s s' := by
  simp only [parseScript2, miniscriptFlags, bind_ok_iff, ofOption_ok_iff, pure_ok_iff] at h
  obtain ⟨_, _, halloc, x, _, hx, _, _, hcomma, y, _, hy, _, _, ⟨-, rfl⟩, _, _, ⟨-, rfl⟩, _, _, ⟨-, rfl⟩,
    rfl, rfl⟩ := h
  obtain ⟨tx, nx, hx, hmx⟩ := parseInner_text hchild hx
  obtain ⟨ty, ny, hy, hmy⟩ := parseInner_text hchild hy
  have hall := (((moves_allocStruct halloc).trans hmx).trans (moves_expectCharacter env hcomma)).trans hmy
  exact ⟨_, _, .withScript2 hx hy, hall.congr (by simp) fun _ => by rw [layout]; rfl⟩

theorem parseThreshChildren_text {isFirst : Bool} {children : List (PolicyNode × Miniscript.Typ)}
    (h : parseThreshChildren env parseChild depth ctx rounds isFirst s = .ok children s') :
    ∃ x : Written env.sizeBits PolicyNode, ∃ xs : List (Written env.sizeBits PolicyNode),
      children.map Prod.fst = x.value :: xs.map Written.value ∧
      (∀ y ∈ x :: xs, ScriptText env.version y.text y.value y.numbers) ∧
      Moves env (x.text ++ commaTexts xs)
        (fun a => scriptsLayout env (xs.map Written.value) (x.value.layout env (env.aligned a))) s s' := by
  induction rounds generalizing isFirst children s with
  | zero => simp [parseThreshChildren] at h
  | succ rounds ih =>
    simp only [parseThreshChildren, miniscriptFlags, bind_ok_iff, ofOption_ok_iff, check_ok_iff] at h
    obtain ⟨x, _, hx, flags, _, ⟨-, rfl⟩, _, _, ⟨-, rfl⟩, more, _, hmore, h⟩ := h
    obtain ⟨t, ns, htext, hmoves⟩ := parseInner_text hchild hx
    cases more with
    | false =>
      simp only [Bool.false_eq_true, if_false, pure_ok_iff] at h
      obtain ⟨rfl, rfl⟩ := h
      rcases consumeCharacters_ok_iff.mp hmore with ⟨hfound, -⟩ | ⟨-, -, rfl⟩
      · cases hfound
      · exact ⟨⟨t, x, ns⟩, [], rfl, by simpa using htext, hmoves.congr (by simp [commaTexts]) fun _ => by
          rw [map_nil, scriptsLayout]⟩
    | true =>
      simp only [if_true, bind_ok_iff, pure_ok_iff] at h
      obtain ⟨_, _, halloc, children, _, hchildren, rfl, rfl⟩ := h
      obtain ⟨y, ys, hvalues, htexts, hmoves'⟩ := ih hchildren
      have hall := ((hmoves.trans (moves_consume env hmore)).trans (moves_allocStruct halloc)).trans hmoves'
      refine ⟨⟨t, x, ns⟩, y :: ys, by rw [map_cons, hvalues]; rfl,
        forall_mem_cons.mpr ⟨htext, htexts⟩, hall.congr (by simp [commaTexts]) fun _ => ?_⟩
      rw [map_cons, scriptsLayout]
      rfl

theorem parseThresh_text (hbits : 32 ≤ env.sizeBits)
    (h : parseThresh env parseChild depth ctx s = .ok node s') : ReadsArguments env .thresh node s s' := by
  simp only [parseThresh, bind_ok_iff, check_ok_iff, get_ok_iff, pure_ok_iff] at h
  obtain ⟨_, _, halloc, k, _, hk, _, _, hcomma, _, _, ⟨-, rfl⟩, _, _, halloc', _, _, ⟨rfl, rfl⟩, children, _,
    hchildren, rfl, rfl⟩ := h
  obtain ⟨n, hkind, rfl, hn⟩ := parseInt16_text hbits (.inr rfl) hk
  obtain ⟨x, xs, hvalues, htexts, hmoves⟩ := parseThreshChildren_text hchild hchildren
  have hall := ((((moves_allocStruct halloc).trans hn).trans (moves_expectCharacter env hcomma)).trans
    (moves_allocStruct halloc')).trans hmoves
  rw [hvalues]
  refine ⟨_, _, .thresh n (x :: xs) hkind htexts, hall.congr (by simp [commaTexts]) fun _ => ?_⟩
  rw [layout, scriptsLayout]
  rfl

theorem parseTree_text {levels : Nat} {tree : PolicyTree PolicyNode}
    (h : parseTree env parseChild levels depth s = .ok tree s') :
    ∃ t, ∃ ns : List (WrittenNumber env.sizeBits), TreeText env.version t tree ns ∧
      Moves env t (treeLayout env tree) s s' := by
  induction levels generalizing depth tree s s' with
  | zero => simp [parseTree] at h
  | succ levels ih =>
    simp only [parseTree, bind_ok_iff, get_ok_iff, check_ok_iff] at h
    obtain ⟨_, _, ⟨rfl, rfl⟩, _, _, ⟨-, rfl⟩, _, _, halloc, c, _, hpeek, _, _, ⟨-, rfl⟩, h⟩ := h
    obtain ⟨hc, rfl⟩ := peek_ok hpeek
    split_ifs at h with hbrace
    · simp only [bind_ok_iff, pure_ok_iff] at h
      obtain ⟨x, _, hx, rfl, rfl⟩ := h
      obtain ⟨t, ns, htext, hmoves⟩ := parseInner_text hchild hx
      exact ⟨t, ns, .leaf htext, ((moves_allocStruct halloc).trans hmoves).congr rfl fun _ => by
        rw [treeLayout]⟩
    · simp only [bind_ok_iff, pure_ok_iff] at h
      obtain ⟨brace, _, hopen, _, _, halign, l, _, hl, _, _, hcomma, _, _, halign', r, _, hr, _, _, hclose,
        rfl, rfl⟩ := h
      obtain rfl : brace = 0x7B := by
        rw [hc, (readChar_ok_iff.mp hopen).1, not_not] at hbrace
        exact Option.some.inj hbrace
      obtain ⟨tl, nl, hl, hml⟩ := ih hl
      obtain ⟨tr, nr, hr, hmr⟩ := ih hr
      have hall := (((((((moves_allocStruct halloc).trans (moves_readChar env hopen)).trans
        (moves_align halign)).trans hml).trans (moves_expectCharacter env hcomma)).trans
        (moves_align halign')).trans hmr).trans (moves_expectCharacter env hclose)
      exact ⟨_, _, .branch hl hr, hall.congr (by simp) fun _ => by rw [treeLayout]; rfl⟩

theorem parseTr_text (hbits : 32 ≤ env.sizeBits) (h : parseTr env parseChild depth s = .ok node s') :
    ReadsArguments env .tr node s s' := by
  simp only [parseTr, parseTrTree, bind_ok_iff, check_ok_iff, pure_ok_iff] at h
  obtain ⟨_, _, ⟨-, rfl⟩, _, _, halloc, _, _, halloc', key, s1, hkey, tree, s2, ⟨c, _, hpeek, htree⟩, rfl,
    rfl⟩ := h
  obtain ⟨hc, rfl⟩ := peek_ok hpeek
  obtain ⟨t, ns, htext, hmoves⟩ := parseKeyexpr_text hbits hkey
  have hfirst := ((moves_allocStruct halloc).trans (moves_allocStruct halloc')).trans hmoves
  split_ifs at htree with hcomma
  · simp only [bind_ok_iff, pure_ok_iff] at htree
    obtain ⟨comma, _, hread, _, _, halign, tree, _, htree, rfl, rfl⟩ := htree
    obtain rfl : comma = 0x2C := by
      rw [hc, (readChar_ok_iff.mp hread).1] at hcomma
      exact Option.some.inj hcomma
    obtain ⟨t', ns', htext', hmoves'⟩ := parseTree_text hchild htree
    have hall := ((hfirst.trans (moves_readChar env hread)).trans (moves_align halign)).trans hmoves'
    refine ⟨_, _, .trTree htext htext', hall.congr (by simp) fun _ => ?_⟩
    rw [layout, trLayout]
    rfl
  · simp only [bind_ok_iff, check_ok_iff, pure_ok_iff] at htree
    obtain ⟨_, _, ⟨-, rfl⟩, rfl, rfl⟩ := htree
    refine ⟨_, _, .tr htext, hfirst.congr rfl fun _ => ?_⟩
    rw [layout, trLayout]
    rfl

end

section

include hbits

theorem parseMultisigKeys_text {keys : List KeyExpr}
    (h : parseMultisigKeys env isTaproot rounds s = .ok keys s') :
    ∃ written : List (Written env.sizeBits KeyExpr), keys = written.map Written.value ∧
      (∀ key ∈ written, KeyexprText env.version key.text key.value key.numbers) ∧
      Moves env (commaTexts written) (keysLayout env keys) s s' := by
  induction rounds generalizing keys s with
  | zero => simp [parseMultisigKeys] at h
  | succ rounds ih =>
    simp only [parseMultisigKeys, bind_ok_iff] at h
    obtain ⟨c, _, hpeek, h⟩ := h
    obtain ⟨-, rfl⟩ := peek_ok hpeek
    split_ifs at h
    · obtain ⟨rfl, rfl⟩ := pure_ok h
      exact ⟨[], rfl, by simp, .read rfl rfl⟩
    · simp only [bind_ok_iff, pure_ok_iff] at h
      obtain ⟨_, _, hcomma, _, _, halloc, key, _, hkey, keys, _, hkeys, rfl, rfl⟩ := h
      obtain ⟨t, ns, htext, hmoves⟩ := parseKeyexpr_text hbits hkey
      obtain ⟨written, rfl, htexts, hmoves'⟩ := ih hkeys
      have hall := (((moves_expectCharacter env hcomma).trans (moves_allocStruct halloc)).trans
        hmoves).trans hmoves'
      exact ⟨⟨t, key, ns⟩ :: written, rfl, forall_mem_cons.mpr ⟨htext, htexts⟩,
        hall.congr (by simp [commaTexts]) fun _ => rfl⟩

theorem parseMultisig_text {token : MultisigToken} (h : parseMultisig env depth ctx token s = .ok node s') :
    ReadsArguments env (.multisig token) node s s' := by
  simp only [parseMultisig, bind_ok_iff, check_ok_iff, get_ok_iff, pure_ok_iff] at h
  obtain ⟨_, _, halloc, _, _, ⟨-, rfl⟩, _, _, ⟨-, rfl⟩, k, _, hk, _, _, halign, _, _, ⟨rfl, rfl⟩, keys, _,
    hkeys, _, _, ⟨-, rfl⟩, rfl, rfl⟩ := h
  obtain ⟨n, hkind, rfl, hn⟩ := parseInt16_text hbits (.inr rfl) hk
  obtain ⟨written, rfl, htexts, hmoves⟩ := parseMultisigKeys_text hbits hkeys
  have hall := (((moves_allocStruct halloc).trans hn).trans (moves_align halign)).trans hmoves
  refine ⟨_, _, .multisig n written hkind htexts, hall.congr (by simp) fun _ => ?_⟩
  rw [layout]
  rfl

theorem parseWithKey_text {token : KeyToken} (h : parseWithKey env depth ctx token s = .ok node s') :
    ReadsArguments env (.key token) node s s' := by
  simp only [parseWithKey, bind_ok_iff, check_ok_iff, pure_ok_iff] at h
  obtain ⟨_, _, halloc, _, _, halloc', _, _, ⟨-, rfl⟩, key, _, hkey, rfl, rfl⟩ := h
  obtain ⟨t, ns, htext, hmoves⟩ := parseKeyexpr_text hbits hkey
  have hall := ((moves_allocStruct halloc).trans (moves_allocStruct halloc')).trans hmoves
  refine ⟨t, ns, .withKey htext, hall.congr rfl fun _ => ?_⟩
  rw [layout]
  rfl

theorem parseUint32_text {token : Uint32Token} (h : parseUint32 env token s = .ok node s') :
    ReadsArguments env (.uint32 token) node s s' := by
  simp only [parseUint32, bind_ok_iff, check_ok_iff, pure_ok_iff, Bool.and_eq_true, decide_eq_true_eq] at h
  obtain ⟨_, _, halloc, value, _, hvalue, _, _, ⟨hrange, rfl⟩, rfl, rfl⟩ := h
  obtain ⟨digits, hread, hmoves⟩ := parseUnsignedDecimal_text hbits hvalue
  let n : WrittenNumber env.sizeBits := ⟨.locktime, digits, value, hread, hrange⟩
  refine ⟨digits, [n], .withUint32 n rfl, ((moves_allocStruct halloc).trans hmoves).congr rfl fun _ => ?_⟩
  rw [layout]
  rfl

end

theorem parseHash_text {token : HashToken} (h : parseHash env token s = .ok node s') :
    ReadsArguments env (.hash token) node s s' := by
  have hread {kind : PolicyStruct} {n : Nat} (hkind : kind = hashStruct token) (h : (do
        allocStruct env kind
        let h ← bufferReadHexHash n
        return withHash (some hashFlags) token h) s = .ok node s') :
      ReadsArguments env (.hash token) node s s' := by
    simp only [bind_ok_iff, pure_ok_iff] at h
    obtain ⟨_, _, halloc, bytes, _, hbytes, rfl, rfl⟩ := h
    obtain ⟨-, hinput, hs⟩ := bufferReadHexHash_ok_iff.mp hbytes
    refine ⟨_, [], .withHash, ((moves_allocStruct halloc).trans (.read hinput hs)).congr rfl fun _ => ?_⟩
    rw [layout, hkind]
    rfl
  cases token <;> exact hread rfl h

theorem parseFragment_text (hchild : ∀ depth ctx s node s', parseChild depth ctx s = .ok node s' →
      ReadsScript env node s s') (hbits : 32 ≤ env.sizeBits) {token : Token} {word : Bytes}
    (hword : knownTokens.lookup word = some token)
    (h : parseFragment env parseChild depth ctx token s = .ok node s') :
    ∃ t, ∃ ns : List (WrittenNumber env.sizeBits), FragmentText env.version (word ++ t) node ns ∧
      Moves env t (node.layout env) s s' := by
  simp only [parseFragment] at h
  split at h
  · simp only [parseConstant, bind_ok_iff, pure_ok_iff] at h
    obtain ⟨_, _, halloc, rfl, rfl⟩ := h
    refine ⟨[], [], ?_, (moves_allocStruct halloc).congr rfl fun _ => by rw [layout]⟩
    rw [append_nil]
    exact .constant hword
  · rename_i hconstant
    simp only [bind_ok_iff, pure_ok_iff] at h
    obtain ⟨_, s1, hopen, inner, s2, h, _, _, hclose, rfl, rfl⟩ := h
    have harguments : ReadsArguments env token inner s1 s2 := by
      cases token with
      | sh => exact parseSh_text hchild h
      | wsh => exact parseWsh_text hchild h
      | tr => exact parseTr_text hchild hbits h
      | andor => exact parseAndor_text hchild h
      | thresh => exact parseThresh_text hchild hbits h
      | constant token => exact absurd rfl (hconstant token)
      | hash token => exact parseHash_text h
      | key token => exact parseWithKey_text hbits h
      | uint32 token => exact parseUint32_text hbits h
      | multisig token => exact parseMultisig_text hbits h
      | script2 token => exact parseScript2_text hchild h
    obtain ⟨t, ns, htext, hmoves⟩ := harguments
    refine ⟨0x28 :: t ++ [0x29], ns, ?_, (((moves_expectCharacter env hopen).trans hmoves).trans
      (moves_expectCharacter env hclose)).congr rfl fun _ => rfl⟩
    simpa using FragmentText.call hword htext

variable (env) in
theorem parseToken_text {token : Token} (h : parseToken s = .ok token s') :
    ∃ word, knownTokens.lookup word = some token ∧ Moves env word id s s' := by
  simp only [parseToken, readToken, bind_ok_iff, get_ok_iff, set_ok_iff, pure_ok_iff, ofOption_ok_iff] at h
  obtain ⟨word, _, ⟨_, _, ⟨rfl, rfl⟩, _, _, rfl, hword, rfl⟩, hlookup, rfl⟩ := h
  have hprefix : word <+: s.input := hword ▸ ( takeWhile_prefix _).trans ( take_prefix _ _)
  refine ⟨word, hlookup, .read ?_ rfl⟩
  rw [hword]
  exact (prefix_iff_eq_append.mp hprefix).symm

theorem moves_wrappers {letters : Bytes} {u : Unit}
    (h : letters.forM (fun _ => allocStruct env .nodeWithScript) s = .ok u s') :
    Moves env [] ((env.after .nodeWithScript)^[letters.length]) s s' := by
  induction letters generalizing s with
  | nil =>
    obtain ⟨-, rfl⟩ := pure_ok h
    exact .read rfl rfl
  | cons c letters ih =>
    obtain ⟨_, s1, halloc, h⟩ := bind_ok h
    exact ((moves_allocStruct halloc).trans (ih h)).congr rfl fun _ => rfl

theorem parseWrappers_text {wrappers : List WrapperToken} (h : parseWrappers env ctx s = .ok wrappers s') :
    (wrappers = [] ∧ s' = s) ∨ ∃ letters : Bytes, wrappers = letters.filterMap wrapperToken ∧
      (∀ c ∈ letters, (wrapperToken c).isSome) ∧
      Moves env (letters ++ [0x3A]) ((env.after .nodeWithScript)^[letters.length]) s s' := by
  simp only [parseWrappers, bind_ok_iff, get_ok_iff] at h
  obtain ⟨_, _, ⟨rfl, rfl⟩, h⟩ := h
  split_ifs at h with hcolon
  · simp only [bind_ok_iff, modify_ok_iff, pure_ok_iff] at h
    obtain ⟨_, s1, halloc, _, _, rfl, rfl, rfl⟩ := h
    have hmoves := moves_wrappers halloc
    generalize hword : s.input.takeWhile (fun c => (wrapperToken c).isSome) = letters at hcolon hmoves ⊢
    obtain ⟨-, hcolon⟩ := Bool.and_eq_true_iff.mp hcolon
    have hprefix : letters <+: s.input := hword ▸ takeWhile_prefix _
    have hsplit : s.input = letters ++ [0x3A] ++ s.input.drop (letters.length + 1) := by
      conv_lhs => rw [← prefix_iff_eq_append.mp hprefix]
      rw [append_assoc, singleton_append, append_cancel_left_eq]
      exact drop_eq_getElem?_toList_append.trans (by rw [of_decide_eq_true hcolon]; rfl)
    have hinput : s1.input = s.input := hmoves.input.symm
    refine .inr ⟨letters, rfl, fun c hc => ?_, ?_, hmoves.offset, hmoves.le⟩
    · rw [← hword] at hc
      exact mem_takeWhile_imp (p := fun c => (wrapperToken c).isSome) hc
    · dsimp only
      rw [hinput]
      exact hsplit
  · obtain ⟨rfl, rfl⟩ := pure_ok h
    exact .inl ⟨rfl, rfl⟩

variable (env) in
theorem applyWrappers_wraps {letters : Bytes} {inner : PolicyNode}
    (hletters : ∀ c ∈ letters, (wrapperToken c).isSome)
    (h : applyWrappers isTaproot (letters.filterMap wrapperToken) inner s = .ok node s') :
    Wraps letters inner node ∧ s' = s ∧
      ∀ a, node.layout env a = inner.layout env ((env.after .nodeWithScript)^[letters.length] a) := by
  induction letters generalizing node s' with
  | nil =>
    obtain ⟨rfl, rfl⟩ := pure_ok h
    exact ⟨.nil, rfl, fun _ => rfl⟩
  | cons c letters ih =>
    obtain ⟨hc, hletters⟩ := forall_mem_cons.mp hletters
    obtain ⟨token, htoken⟩ := Option.isSome_iff_exists.mp hc
    rw [filterMap_cons_some htoken] at h
    simp only [applyWrappers, miniscriptFlags, bind_ok_iff, ofOption_ok_iff, pure_ok_iff] at h
    obtain ⟨script, _, hscript, _, _, ⟨-, rfl⟩, _, _, ⟨-, rfl⟩, rfl, rfl⟩ := h
    obtain ⟨hwraps, rfl, hlayout⟩ := ih hletters hscript
    exact ⟨.cons htoken hwraps, rfl, fun a => by rw [layout, hlayout]; rfl⟩

theorem parseScript_text (hbits : 32 ≤ env.sizeBits) {fuel : Nat}
    (h : parseScript env fuel depth ctx s = .ok node s') :
    ReadsScript env node s s' ∧ (depth = 0 → s'.input = []) := by
  induction fuel generalizing depth ctx s node s' with
  | zero => simp [parseScript] at h
  | succ fuel ih =>
    simp only [parseScript, bind_ok_iff, check_ok_iff] at h
    obtain ⟨_, s1, hreset, wrappers, s2, hwrappers, token, s3, htoken, _, _, ⟨-, rfl⟩, inner, s4, hinner, _, s5,
      hend, happly⟩ := h
    have hreset : Moves env [] id s s1 := by
      unfold resetCount at hreset
      split_ifs at hreset
      · obtain rfl := modify_ok_iff.mp hreset
        exact ⟨rfl, rfl, id⟩
      · obtain ⟨-, rfl⟩ := pure_ok hreset
        exact .read rfl rfl
    simp only [checkEnd, bind_ok_iff, get_ok_iff, check_ok_iff] at hend
    obtain ⟨_, _, ⟨rfl, rfl⟩, hend, rfl⟩ := hend
    have hend : depth = 0 → s4.input = [] := by
      intro hdepth
      simpa [hdepth] using hend
    obtain ⟨word, hword, hmoves⟩ := parseToken_text env htoken
    obtain ⟨t, ns, htext, hmoves'⟩ := parseFragment_text (fun _ _ _ _ _ h => (ih h).1) hbits hword hinner
    rcases parseWrappers_text hwrappers with ⟨rfl, rfl⟩ | ⟨letters, rfl, hletters, hmoves''⟩
    · obtain ⟨rfl, rfl⟩ := pure_ok happly
      exact ⟨⟨_, ns, .plain htext, ((hreset.trans hmoves).trans hmoves').congr rfl fun _ => rfl⟩, hend⟩
    · obtain ⟨hwraps, rfl, hlayout⟩ := applyWrappers_wraps env hletters happly
      refine ⟨⟨_, ns, .wrapped hwraps htext, (((hreset.trans hmoves'').trans hmoves).trans hmoves').congr
        (by simp) fun a => ?_⟩, hend⟩
      rw [hlayout]
      rfl

theorem parseDescriptorTemplate_text (hbits : 32 ≤ env.sizeBits) {template : Bytes}
    (h : parseDescriptorTemplate env template = some node) :
    (∃ ns : List (WrittenNumber env.sizeBits), ScriptText env.version template node ns) ∧
      node.layout env 0 ≤ env.outLen := by
  unfold parseDescriptorTemplate at h
  split_ifs at h
  have hrun := ok_of_returned? h
  obtain ⟨⟨t, ns, htext, hmoves⟩, hend⟩ := parseScript_text hbits hrun
  have hinput := hmoves.input
  rw [hend rfl, append_nil] at hinput
  obtain rfl : template = t := hinput
  exact ⟨⟨ns, htext⟩, hmoves.offset ▸ hmoves.le (Nat.zero_le _)⟩

end LedgerBabylon
