import LedgerBabylon.Common.Policy
import LedgerBabylon.Lib.Exec

/-!
# Parsing descriptor templates

The recursive parser of descriptor templates. Nodes are allocated in an output buffer as they are
parsed, so a template can also be rejected for lack of memory; the sizes of the structures, which
depend on the platform, are parameters.
-/

namespace LedgerBabylon

open Miniscript Exec

inductive PolicyStruct where
  | nodeConstant
  | nodeWithScript
  | nodeWithScript2
  | nodeWithScript3
  | nodeWithKey
  | nodeWithUint32
  | nodeWithHash256
  | nodeWithHash160
  | nodeMultisig
  | nodeThresh
  | nodeTr
  | tree
  | scriptlist
  | keyexpr
  | pointer
  | uint16
  deriving DecidableEq

structure ParseEnv where
  version : Nat
  /-- the width of `size_t` -/
  sizeBits : Nat
  sizeof : PolicyStruct → Nat
  outLen : Nat

/-- A 32-bit ARM device with short enumerations and a buffer of `MAX_WALLET_POLICY_BYTES`. -/
def ParseEnv.device (version : Nat) : ParseEnv where
  version
  sizeBits := 32
  sizeof
    | .nodeConstant => 8
    | .nodeWithScript | .nodeWithScript2 | .nodeWithKey | .nodeWithUint32 | .nodeTr => 12
    | .nodeWithScript3 | .nodeMultisig | .nodeThresh | .keyexpr => 16
    | .nodeWithHash256 => 40
    | .nodeWithHash160 => 28
    | .tree => 6
    | .scriptlist | .pointer => 4
    | .uint16 => 2
  outLen := 896

/-- The unread text, the number of bytes used in the output buffer, and the number of key expressions
parsed so far. -/
structure ParseState where
  input : Bytes
  outOffset : Nat
  keyExpressionCount : UInt16

variable {s s' : ParseState}

inductive ParseError where
  | failed
  | endless
  deriving DecidableEq

abbrev Parse := EStateM ParseError ParseState

def Parse.fail {α : Type} : Parse α := throw .failed

def Parse.check (b : Bool) : Parse Unit := if b then pure () else Parse.fail

def Parse.ofOption {α : Type} : Option α → Parse α
  | some x => pure x
  | none => Parse.fail

open Parse

@[simp] theorem check_ok_iff {b : Bool} {u : Unit} :
    Parse.check b s = .ok u s' ↔ b ∧ s = s' := by
  cases b <;> simp [Parse.check, Parse.fail]

@[simp] theorem ofOption_ok_iff {α : Type} {o : Option α} {x : α} :
    Parse.ofOption o s = .ok x s' ↔ o = some x ∧ s = s' := by
  cases o <;> simp [Parse.ofOption, Parse.fail]

@[simp] theorem fail_ok_iff {α : Type} {x : α} : (Parse.fail : Parse α) s = .ok x s' ↔ False := by
  simp [Parse.fail]

def isDigit (c : UInt8) : Bool := 0x30 ≤ c && c ≤ 0x39

def isAlpha (c : UInt8) : Bool := (0x61 ≤ c && c ≤ 0x7A) || (0x41 ≤ c && c ≤ 0x5A)

def isAlphanumeric (c : UInt8) : Bool := isAlpha c || isDigit c

def isLowercaseHex (c : UInt8) : Bool := isDigit c || (0x61 ≤ c && c ≤ 0x66)

def lowercaseHexToInt (c : UInt8) : UInt8 := if isDigit c then c - 0x30 else c - 0x61 + 10

def peek : Parse (Option UInt8) := do
  return (← get).input.head?

def readChar : Parse UInt8 := do
  let s ← get
  let c ← ofOption s.input.head?
  set { s with input := s.input.tail }
  return c

def consumeCharacters (expected : Bytes) : Parse Bool := do
  let s ← get
  if s.input.take expected.length = expected then
    set { s with input := s.input.drop expected.length }
    return true
  else return false

def consumeCharacter (expected : UInt8) : Parse Bool := consumeCharacters [expected]

def expectCharacter (expected : UInt8) : Parse Unit := do
  let found ← consumeCharacter expected
  check found

theorem readChar_ok_iff {c : UInt8} :
    readChar s = .ok c s' ↔ s.input = c :: s'.input ∧ s' = { s with input := s'.input } := by
  simp only [readChar, bind_ok_iff, get_ok_iff, ofOption_ok_iff, set_ok_iff, pure_ok_iff]
  constructor
  · rintro ⟨_, _, ⟨rfl, rfl⟩, _, _, ⟨hhead, rfl⟩, _, _, rfl, rfl, rfl⟩
    exact ⟨List.eq_cons_of_mem_head? hhead, rfl⟩
  · rintro ⟨hinput, hs⟩
    refine ⟨s, s, ⟨rfl, rfl⟩, c, s, ⟨by rw [hinput]; rfl, rfl⟩, ⟨⟩, s', ?_, rfl, rfl⟩
    rw [hinput]
    exact hs.symm

theorem consumeCharacters_ok_iff {expected : Bytes} {found : Bool} :
    consumeCharacters expected s = .ok found s' ↔
      (found ∧ s.input = expected ++ s'.input ∧ s' = { s with input := s'.input }) ∨
        (found = false ∧ ¬expected <+: s.input ∧ s' = s) := by
  have htake : s.input.take expected.length = expected ↔ expected <+: s.input := by
    rw [List.prefix_iff_eq_take, eq_comm]
  simp only [consumeCharacters, bind_ok_iff, get_ok_iff]
  constructor
  · rintro ⟨_, _, ⟨rfl, rfl⟩, h⟩
    split_ifs at h with hfound
    · simp only [bind_ok_iff, set_ok_iff, pure_ok_iff] at h
      obtain ⟨_, _, rfl, rfl, rfl⟩ := h
      refine .inl ⟨rfl, ?_, rfl⟩
      conv_lhs => rw [← List.take_append_drop expected.length s.input, hfound]
    · obtain ⟨rfl, rfl⟩ := pure_ok h
      exact .inr ⟨rfl, fun h => hfound (htake.mpr h), rfl⟩
  · rintro (⟨rfl, hinput, hs⟩ | ⟨rfl, hnot, rfl⟩)
    · refine ⟨s, s, ⟨rfl, rfl⟩, ?_⟩
      rw [if_pos (by rw [hinput]; exact List.take_left)]
      refine bind_ok_iff.mpr ⟨⟨⟩, s', set_ok_iff.mpr ?_, rfl⟩
      rw [hinput, List.drop_left]
      exact hs.symm
    · exact ⟨s', s', ⟨rfl, rfl⟩, by rw [if_neg fun h => hnot (htake.mp h)]; rfl⟩

theorem singleton_prefix_iff {c : UInt8} {input : Bytes} : [c] <+: input ↔ input.head? = some c := by
  cases input with
  | nil => simp
  | cons d input => simp [List.cons_prefix_cons, eq_comm]

theorem expectCharacter_ok_iff {expected : UInt8} {u : Unit} : expectCharacter expected s = .ok u s' ↔
      s.input = expected :: s'.input ∧ s' = { s with input := s'.input } := by
  simp only [expectCharacter, consumeCharacter, bind_ok_iff, consumeCharacters_ok_iff, check_ok_iff]
  constructor
  · rintro ⟨found, t, h, rfl, rfl⟩
    rcases h with ⟨-, h⟩ | ⟨hfound, -⟩
    · exact h
    · cases hfound
  · intro h
    exact ⟨true, s', .inl ⟨rfl, h⟩, rfl, rfl⟩

def maxTokenLength : Nat := 13

def readToken (outLen : Nat) : Parse Bytes := do
  let s ← get
  let word := (s.input.take outLen).takeWhile fun c => isAlphanumeric c || c = 0x5F
  set { s with input := s.input.drop word.length }
  return word

def knownTokens : List (Bytes × Token) :=
  [(text "sh", .sh), (text "wsh", .wsh), (text "pkh", .key .pkh), (text "wpkh", .key .wpkh),
    (text "multi", .multisig .multi), (text "multi_a", .multisig .multiA),
    (text "sortedmulti", .multisig .sortedmulti), (text "sortedmulti_a", .multisig .sortedmultiA),
    (text "tr", .tr), (text "0", .constant .zero), (text "1", .constant .one),
    (text "pk", .key .pk), (text "pk_k", .key .pkK), (text "pk_h", .key .pkH),
    (text "older", .uint32 .older), (text "after", .uint32 .after),
    (text "sha256", .hash .sha256), (text "hash256", .hash .hash256),
    (text "ripemd160", .hash .ripemd160), (text "hash160", .hash .hash160),
    (text "andor", .andor), (text "and_v", .script2 .andV), (text "and_b", .script2 .andB),
    (text "and_n", .script2 .andN), (text "or_b", .script2 .orB), (text "or_c", .script2 .orC),
    (text "or_d", .script2 .orD), (text "or_i", .script2 .orI), (text "thresh", .thresh)]

def parseToken : Parse Token := do
  let word ← readToken maxTokenLength
  ofOption (knownTokens.lookup word)

/-- The loop of `parse_unsigned_decimal`: the value and the number of digits, for a `size_t` of the
given width. -/
def decimalLoop (sizeBits : Nat) : Bytes → Nat → Nat → Option (Nat × Nat)
  | [], digitsRead, result => some (digitsRead, result)
  | c :: cs, digitsRead, result =>
    if isDigit c then
      let next := (10 * result + (c - 0x30).toNat) % 2 ^ sizeBits
      if digitsRead = 1 ∧ result = 0 then none
      else if next < result then none
      else decimalLoop sizeBits cs (digitsRead + 1) next
    else some (digitsRead, result)

def parseUnsignedDecimal (sizeBits : Nat) : Parse UInt32 := do
  let s ← get
  let (digitsRead, result) ← ofOption (decimalLoop sizeBits s.input 0 0)
  set { s with input := s.input.drop digitsRead }
  check (digitsRead ≠ 0)
  return UInt32.ofNat result

def parseInt16 (sizeBits : Nat) : Parse Nat := do
  let k ← parseUnsignedDecimal sizeBits
  check (k.toNat ≤ 0x7FFF)
  return k.toNat

def hexBytes : Bytes → Option Bytes
  | c1 :: c2 :: cs =>
    if isLowercaseHex c1 && isLowercaseHex c2 then
      (hexBytes cs).map ((16 * lowercaseHexToInt c1 + lowercaseHexToInt c2) :: ·)
    else none
  | _ => some []

def bufferReadHexHash (n : Nat) : Parse Bytes := do
  let s ← get
  check (2 * n ≤ s.input.length)
  let out ← ofOption (hexBytes (s.input.take (2 * n)))
  set { s with input := s.input.drop (2 * n) }
  return out

section

variable (env : ParseEnv)

def alloc (size : Nat) : Parse Unit := do
  let s ← get
  let padding := (4 - s.outOffset % 4) % 4
  check (s.outOffset + padding + size ≤ env.outLen)
  set { s with outOffset := s.outOffset + padding + size }

def align : Parse Unit := do
  let s ← get
  let padding := (4 - s.outOffset % 4) % 4
  if s.outOffset + padding ≤ env.outLen then set { s with outOffset := s.outOffset + padding }

def allocStruct (kind : PolicyStruct) : Parse Unit := alloc env (env.sizeof kind)

def maxPubkeysPerMusig : Nat := 5

def parseMusigKeys : Nat → List Nat → Parse (List Nat)
  | 0, _ => throw .endless
  | rounds + 1, keys => do
    let c ← readChar
    check (c = 0x40)
    let k ← parseInt16 env.sizeBits
    check (keys.length < maxPubkeysPerMusig)
    let keys := keys ++ [k]
    let c ← readChar
    if c = 0x29 then return keys
    else do
      check (c = 0x2C)
      parseMusigKeys rounds keys

def parseMusig (isTaproot : Bool) : Parse KeyExpressionType := do
  let found ← consumeCharacters (text "usig(")
  check found
  check isTaproot
  check (env.version = 2)
  let s ← get
  let keys ← parseMusigKeys env (s.input.length + 1) []
  check (2 ≤ keys.length)
  allocStruct env .pointer
  alloc env (env.sizeof .uint16 * keys.length)
  return .musig keys

def parseDerivationPair : Parse (UInt32 × UInt32) := do
  let numFirst ← parseUnsignedDecimal env.sizeBits
  check (numFirst.toNat ≤ 0x80000000)
  expectCharacter 0x3B
  let numSecond ← parseUnsignedDecimal env.sizeBits
  check (numSecond.toNat ≤ 0x80000000)
  check (numFirst ≠ numSecond)
  let found ← consumeCharacters (text ">/*")
  check found
  return (numFirst, numSecond)

def parseDerivation : Parse (UInt32 × UInt32) :=
  if env.version = 1 then return (0, 1)
  else if env.version = 2 then do
    expectCharacter 0x2F
    let c ← peek
    if c = some 0x2A then
      let found ← consumeCharacters (text "**")
      check found
      return (0, 1)
    else if c = some 0x3C then
      let _ ← readChar
      parseDerivationPair env
    else fail
  else fail

def parseKey (isTaproot : Bool) : Parse KeyExpressionType := do
  let c ← readChar
  if c = 0x40 then
    let k ← parseInt16 env.sizeBits
    return .normal k
  else if c = 0x6D then parseMusig env isTaproot
  else fail

def parseKeyexpr (isTaproot : Bool) : Parse KeyExpr := do
  let type ← parseKey env isTaproot
  let (numFirst, numSecond) ← parseDerivation env
  let s ← get
  set { s with keyExpressionCount := s.keyExpressionCount + 1 }
  return ⟨numFirst, numSecond, type, s.keyExpressionCount⟩

end

/-! ### Types

The checks and the flags of each kind of node, from the flags of its children. -/

def constantFlags : ConstantToken → Typ
  | .zero => ⟨.B, true, false, false, true, true⟩
  | .one => ⟨.B, true, false, false, false, true⟩

def hashFlags : Typ := ⟨.B, false, true, true, true, true⟩

def uint32Flags : Typ := ⟨.B, true, false, false, false, false⟩

def keyFlags : KeyToken → Option Typ
  | .wpkh => none
  | .pk => some ⟨.B, false, true, true, true, true⟩
  | .pkh => some ⟨.B, false, false, true, true, true⟩
  | .pkK => some ⟨.K, false, true, true, true, true⟩
  | .pkH => some ⟨.K, false, false, true, true, true⟩

def multisigFlags : MultisigToken → Option Typ
  | .sortedmulti | .sortedmultiA => none
  | .multi => some ⟨.B, false, false, true, true, true⟩
  | .multiA => some ⟨.B, false, false, false, true, true⟩

def andorFlags (x y z : Typ) : Option Typ :=
  if x.base ≠ .B || !x.d || !x.u then none
  else if y.base ≠ z.base then none
  else if y.base = .W then none
  else some ⟨y.base, x.z && y.z && z.z, (x.z && y.o && z.o) || (x.o && y.z && z.z), false, z.d, y.u && z.u⟩

def andVFlags (x y : Typ) : Option Typ :=
  if y.base = .W then none
  else some ⟨y.base, x.z && y.z, (x.z && y.o) || (x.o && y.z), x.n || (x.z && y.n), false, y.u⟩

def andBFlags (x y : Typ) : Option Typ :=
  if x.base ≠ .B || y.base ≠ .W then none
  else some ⟨.B, x.z && y.z, (x.z && y.o) || (x.o && y.z), x.n || (x.z && y.n), x.d && y.d, true⟩

def andNFlags (x y : Typ) : Option Typ :=
  if x.base ≠ .B || !x.d || !x.u then none
  else if y.base ≠ .B then none
  else some ⟨.B, x.z && y.z, x.o && y.z, false, true, y.u⟩

def orBFlags (x z : Typ) : Option Typ :=
  if x.base ≠ .B || !x.d then none
  else if z.base ≠ .W || !z.d then none
  else some ⟨.B, x.z && z.z, (x.z && z.o) || (x.o && z.z), false, true, true⟩

def orCFlags (x z : Typ) : Option Typ :=
  if x.base ≠ .B || !x.d || !x.u then none
  else if z.base ≠ .V then none
  else some ⟨.V, x.z && z.z, x.o && z.z, false, false, false⟩

def orDFlags (x z : Typ) : Option Typ :=
  if x.base ≠ .B || !x.d || !x.u then none
  else if z.base ≠ .B then none
  else some ⟨.B, x.z && z.z, x.o && z.z, false, z.d, z.u⟩

def orIFlags (x z : Typ) : Option Typ :=
  if x.base = .W then none
  else if x.base ≠ z.base then none
  else some ⟨x.base, false, x.z && z.z, false, x.d || z.d, x.u && z.u⟩

def script2Flags : Script2Token → Typ → Typ → Option Typ
  | .andV => andVFlags
  | .andB => andBFlags
  | .andN => andNFlags
  | .orB => orBFlags
  | .orC => orCFlags
  | .orD => orDFlags
  | .orI => orIFlags

def threshChildOk (isFirst : Bool) (x : Typ) : Bool :=
  (if isFirst then x.base = .B else x.base = .W) && x.d && x.u

def threshFlags (xs : List Typ) : Typ :=
  let countZ := xs.countP Typ.z
  let countO := xs.countP Typ.o
  ⟨.B, countZ = xs.length, countZ + 1 = xs.length && countO = 1, false, true, true⟩

def wrapperFlags (isTaproot : Bool) (token : WrapperToken) (x : Typ) : Option Typ :=
  match token with
  | .a => if x.base ≠ .B then none else some ⟨.W, false, false, false, x.d, x.u⟩
  | .s => if x.base ≠ .B || !x.o then none else some ⟨.W, false, false, false, x.d, x.u⟩
  | .c => if x.base ≠ .K then none else some ⟨.B, false, x.o, x.n, x.d, true⟩
  | .t => if x.base ≠ .V then none else some ⟨.B, x.z, x.o, x.n, false, true⟩
  | .d => if x.base ≠ .V || !x.z then none else some ⟨.B, false, true, true, true, isTaproot⟩
  | .v => if x.base ≠ .B then none else some ⟨.V, x.z, x.o, x.n, false, false⟩
  | .j => if x.base ≠ .B || !x.n then none else some ⟨.B, false, x.o, true, true, x.u⟩
  | .n => if x.base ≠ .B then none else some ⟨.B, x.z, x.o, x.n, x.d, true⟩
  | .l => if x.base ≠ .B then none else some ⟨.B, false, x.z, false, true, x.u⟩
  | .u => if x.base ≠ .B then none else some ⟨.B, false, x.z, false, true, x.u⟩

structure ParseContext where
  withinSh : Bool
  withinWsh : Bool
  withinTr : Bool

def wrapperToken (c : UInt8) : Option WrapperToken :=
  if c = 0x61 then some .a
  else if c = 0x73 then some .s
  else if c = 0x63 then some .c
  else if c = 0x74 then some .t
  else if c = 0x64 then some .d
  else if c = 0x76 then some .v
  else if c = 0x6A then some .j
  else if c = 0x6E then some .n
  else if c = 0x6C then some .l
  else if c = 0x75 then some .u
  else none

def tokenAllowed (ctx : ParseContext) (depth : Nat) (token : Token) : Bool :=
  let simple := token = .key .pk || token = .key .pkh || token = .multisig .multi
    || token = .multisig .sortedmulti
  (!ctx.withinSh || simple || token = .key .wpkh || token = .wsh)
    && (!(ctx.withinSh && ctx.withinWsh && depth = 2) || simple)

def maxPubkeysPerMultisig : Nat := 16

def maxTaptreePolicyDepth : Nat := 9

variable (env : ParseEnv)

/-- The wrappers in front of a script, if there are any. The colon may also stand alone. -/
def parseWrappers (ctx : ParseContext) : Parse (List WrapperToken) := do
  let s ← get
  let letters := s.input.takeWhile fun c => (wrapperToken c).isSome
  if ((ctx.withinWsh && !ctx.withinSh) || ctx.withinTr) && s.input[letters.length]? = some 0x3A then
    letters.forM fun _ => allocStruct env .nodeWithScript
    modify fun s => { s with input := s.input.drop (letters.length + 1) }
    return letters.filterMap wrapperToken
  else return []

def miniscriptFlags (node : PolicyNode) : Parse Typ := ofOption node.flags

def applyWrappers (isTaproot : Bool) : List WrapperToken → PolicyNode → Parse PolicyNode
  | [], node => return node
  | token :: wrappers, node => do
    let script ← applyWrappers isTaproot wrappers node
    let x ← miniscriptFlags script
    let flags ← ofOption (wrapperFlags isTaproot token x)
    return .wrapper (some flags) token script

section

-- the parser of inner scripts; the depth and the context of this one
variable (parseChild : Nat → ParseContext → Parse PolicyNode) (depth : Nat) (ctx : ParseContext)

def parseInner (ctx : ParseContext) : Parse PolicyNode := do
  align env
  parseChild (depth + 1) ctx

def parseSh : Parse PolicyNode := do
  check (depth = 0)
  allocStruct env .nodeWithScript
  let script ← parseInner env parseChild depth { ctx with withinSh := true }
  return .sh script

def parseWsh : Parse PolicyNode := do
  check (depth = 0 || ctx.withinSh)
  allocStruct env .nodeWithScript
  let script ← parseInner env parseChild depth { ctx with withinWsh := true }
  return .wsh script

def parseConstant (token : ConstantToken) : Parse PolicyNode := do
  allocStruct env .nodeConstant
  return .constant (some (constantFlags token)) token

def parseHash (token : HashToken) : Parse PolicyNode := do
  match token with
  | .sha256 | .hash256 =>
    allocStruct env .nodeWithHash256
    let h ← bufferReadHexHash 32
    return .withHash (some hashFlags) token h
  | .ripemd160 | .hash160 =>
    allocStruct env .nodeWithHash160
    let h ← bufferReadHexHash 20
    return .withHash (some hashFlags) token h

def parseAndor : Parse PolicyNode := do
  allocStruct env .nodeWithScript3
  let x ← parseInner env parseChild depth ctx
  expectCharacter 0x2C
  let y ← parseInner env parseChild depth ctx
  expectCharacter 0x2C
  let z ← parseInner env parseChild depth ctx
  let xFlags ← miniscriptFlags x
  let yFlags ← miniscriptFlags y
  let zFlags ← miniscriptFlags z
  let flags ← ofOption (andorFlags xFlags yFlags zFlags)
  return .andor (some flags) x y z

def parseScript2 (token : Script2Token) : Parse PolicyNode := do
  allocStruct env .nodeWithScript2
  let x ← parseInner env parseChild depth ctx
  expectCharacter 0x2C
  let y ← parseInner env parseChild depth ctx
  let xFlags ← miniscriptFlags x
  let yFlags ← miniscriptFlags y
  let flags ← ofOption (script2Flags token xFlags yFlags)
  return .withScript2 (some flags) token x y

def parseThreshChildren : Nat → Bool → Parse (List (PolicyNode × Typ))
  | 0, _ => throw .endless
  | rounds + 1, isFirst => do
    let x ← parseInner env parseChild depth ctx
    let flags ← miniscriptFlags x
    check (threshChildOk isFirst flags)
    let more ← consumeCharacter 0x2C
    if more then
      allocStruct env .scriptlist
      let xs ← parseThreshChildren rounds false
      return (x, flags) :: xs
    else return [(x, flags)]

/-- `thresh`; the threshold is compared with 1 but not with the number of children. -/
def parseThresh : Parse PolicyNode := do
  allocStruct env .nodeThresh
  let k ← parseInt16 env.sizeBits
  expectCharacter 0x2C
  check (1 ≤ k)
  allocStruct env .scriptlist
  let s ← get
  let children ← parseThreshChildren env parseChild depth ctx (s.input.length + 1) true
  return .thresh (some (threshFlags (children.map Prod.snd))) k (children.map Prod.fst)

def parseWithKey (token : KeyToken) : Parse PolicyNode := do
  allocStruct env .nodeWithKey
  allocStruct env .keyexpr
  check (token ≠ .wpkh || depth = 0 || ctx.withinSh)
  let key ← parseKeyexpr env ctx.withinTr
  return .withKey (keyFlags token) token key

def parseUint32 (token : Uint32Token) : Parse PolicyNode := do
  allocStruct env .nodeWithUint32
  let n ← parseUnsignedDecimal env.sizeBits
  check (1 ≤ n.toNat && n.toNat < 2 ^ 31)
  return .withUint32 (some uint32Flags) token n

def parseMultisigKeys (isTaproot : Bool) : Nat → Parse (List KeyExpr)
  | 0 => throw .endless
  | rounds + 1 => do
    let c ← peek
    if c = some 0x29 then return []
    else
      expectCharacter 0x2C
      allocStruct env .keyexpr
      let key ← parseKeyexpr env isTaproot
      let keys ← parseMultisigKeys isTaproot rounds
      return key :: keys

def parseMultisig (token : MultisigToken) : Parse PolicyNode := do
  allocStruct env .nodeMultisig
  check (if ctx.withinTr then token = .multiA || token = .sortedmultiA
    else token = .multi || token = .sortedmulti)
  check (token ≠ .sortedmulti || depth = ctx.withinSh.toNat + ctx.withinWsh.toNat)
  let k ← parseInt16 env.sizeBits
  align env
  let s ← get
  let keys ← parseMultisigKeys env ctx.withinTr (s.input.length + 1)
  check (1 ≤ k && k ≤ keys.length && keys.length ≤ maxPubkeysPerMultisig)
  return .multisig (multisigFlags token) token k keys

/-- `parse_tree` at some depth, with so many levels left before `MAX_TAPTREE_POLICY_DEPTH` is
exceeded. -/
def parseTree : Nat → Nat → Parse (PolicyTree PolicyNode)
  | 0, _ => fail
  | levels + 1, depth => do
    let s ← get
    check (s.outOffset % 4 = 0)
    allocStruct env .tree
    let c ← peek
    check c.isSome
    if c ≠ some 0x7B then
      let script ← parseInner env parseChild depth ⟨false, false, true⟩
      return .leaf script
    else
      let _ ← readChar
      align env
      let leftTree ← parseTree levels (depth + 1)
      expectCharacter 0x2C
      align env
      let rightTree ← parseTree levels (depth + 1)
      expectCharacter 0x7D
      return .branch leftTree rightTree

def parseTrTree : Parse (Option (PolicyTree PolicyNode)) := do
  let c ← peek
  if c = some 0x2C then
    let _ ← readChar
    align env
    let tree ← parseTree env parseChild (maxTaptreePolicyDepth - depth) (depth + 1)
    return some tree
  else
    check (c = some 0x29)
    return none

def parseTr : Parse PolicyNode := do
  check (depth ≤ 1)
  allocStruct env .nodeTr
  allocStruct env .keyexpr
  let key ← parseKeyexpr env true
  let tree ← parseTrTree env parseChild depth
  return .tr key tree

def parseArguments : Token → Parse PolicyNode
  | .sh => parseSh env parseChild depth ctx
  | .wsh => parseWsh env parseChild depth ctx
  | .tr => parseTr env parseChild depth
  | .andor => parseAndor env parseChild depth ctx
  | .thresh => parseThresh env parseChild depth ctx
  | .constant token => parseConstant env token
  | .hash token => parseHash env token
  | .key token => parseWithKey env depth ctx token
  | .uint32 token => parseUint32 env token
  | .multisig token => parseMultisig env depth ctx token
  | .script2 token => parseScript2 env parseChild depth ctx token

def parseFragment (token : Token) : Parse PolicyNode :=
  match token with
  | .constant token => parseConstant env token
  | token => do
    expectCharacter 0x28
    let node ← parseArguments env parseChild depth ctx token
    expectCharacter 0x29
    return node

end

def resetCount (depth : Nat) : Parse Unit :=
  if depth = 0 then modify fun s => { s with keyExpressionCount := 0 } else pure ()

def checkEnd (depth : Nat) : Parse Unit := do
  let s ← get
  check (depth ≠ 0 || s.input = [])

def parseScript : Nat → Nat → ParseContext → Parse PolicyNode
  | 0, _, _ => throw .endless
  | fuel + 1, depth, ctx => do
    resetCount depth
    let wrappers ← parseWrappers env ctx
    let token ← parseToken
    check (tokenAllowed ctx depth token)
    let node ← parseFragment env (parseScript fuel) depth ctx token
    checkEnd depth
    applyWrappers ctx.withinTr wrappers node

def parseDescriptorTemplate (template : Bytes) : Option PolicyNode :=
  if env.version = 1 ∨ env.version = 2 then
    returned? (parseScript env (template.length + 1) 0 ⟨false, false, false⟩) ⟨template, 0, 0⟩
  else none

end LedgerBabylon
