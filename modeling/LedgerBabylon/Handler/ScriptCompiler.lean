import LedgerBabylon.Common.Script
import LedgerBabylon.Handler.PolicyKeys

/-!
# Compiling scripts

The script of a miniscript expression is emitted node by node. Most nodes are described by a list of
commands; `thresh` and the multisigs have processors of their own. The source keeps the nodes that are
being processed on a stack of limited size; here they are the recursive calls, and what is left of the
stack is a parameter.
-/

namespace LedgerBabylon

open Endian Exec

inductive ProcessorCommand where
  | op (opcode : UInt8)
  | opV (opcode : UInt8)
  | pushPk (key : KeyExpr)
  | pushPkh (key : KeyExpr)
  | pushUint32 (n : UInt32)
  | pushHash20 (h : Bytes)
  | pushHash32 (h : Bytes)
  | processChild (script : PolicyNode)
  | processChildV (script : PolicyNode)
  | processChildVV (script : PolicyNode)

open ProcessorCommand

def ConstantToken.commands : ConstantToken → List ProcessorCommand
  | .zero => [opV OP_0]
  | .one => [opV OP_1]

def hashCommands (hashOp : UInt8) (pushHash : ProcessorCommand) : List ProcessorCommand :=
  [op OP_SIZE, op 1, op 32, op OP_EQUALVERIFY, op hashOp, pushHash, opV OP_EQUAL]

def HashToken.commands (h : Bytes) : HashToken → List ProcessorCommand
  | .sha256 => hashCommands OP_SHA256 (pushHash32 h)
  | .hash256 => hashCommands OP_HASH256 (pushHash32 h)
  | .ripemd160 => hashCommands OP_RIPEMD160 (pushHash20 h)
  | .hash160 => hashCommands OP_HASH160 (pushHash20 h)

def pkCommands (key : KeyExpr) : List ProcessorCommand := [pushPk key, opV OP_CHECKSIG]

def pkKCommands (key : KeyExpr) : List ProcessorCommand := [pushPk key, opV OP_CHECKSIGVERIFY]

def pkHCommands (key : KeyExpr) : List ProcessorCommand :=
  [op OP_DUP, op OP_HASH160, pushPkh key, op OP_EQUALVERIFY]

def Uint32Token.commands (n : UInt32) : Uint32Token → List ProcessorCommand
  | .older => [pushUint32 n, opV OP_CSV]
  | .after => [pushUint32 n, opV OP_CLTV]

def andorCommands (x y z : PolicyNode) : List ProcessorCommand :=
  [processChild x, op OP_NOTIF, processChild z, op OP_ELSE, processChild y, opV OP_ENDIF]

def Script2Token.commands (x y : PolicyNode) : Script2Token → List ProcessorCommand
  | .andV => [processChild x, processChildV y]
  | .andB => [processChild x, processChild y, opV OP_BOOLAND]
  | .andN => [processChild x, op OP_NOTIF, op OP_0, op OP_ELSE, processChild y, opV OP_ENDIF]
  | .orB => [processChild x, processChild y, opV OP_BOOLOR]
  | .orC => [processChild x, op OP_NOTIF, processChild y, opV OP_ENDIF]
  | .orD => [processChild x, op OP_IFDUP, op OP_NOTIF, processChild y, opV OP_ENDIF]
  | .orI => [op OP_IF, processChild x, op OP_ELSE, processChild y, opV OP_ENDIF]

def WrapperToken.commands (x : PolicyNode) : WrapperToken → List ProcessorCommand
  | .a => [op OP_TOALTSTACK, processChild x, op OP_FROMALTSTACK]
  | .s => [op OP_SWAP, processChild x]
  | .c => [processChild x, opV OP_CHECKSIG]
  | .t => [processChild x, opV OP_1]
  | .d => [op OP_DUP, op OP_IF, processChild x, opV OP_ENDIF]
  | .v => [processChildVV x]
  | .j => [op OP_SIZE, op OP_0NOTEQUAL, op OP_IF, processChild x, opV OP_ENDIF]
  | .n => [processChild x, opV OP_0NOTEQUAL]
  | .l => [op OP_IF, op OP_0, op OP_ELSE, processChild x, opV OP_ENDIF]
  | .u => [op OP_IF, processChild x, op OP_ELSE, op OP_0, opV OP_ENDIF]

def pushU32 (n : UInt32) : Bytes :=
  if n = 0 then [OP_0]
  else if n ≤ 16 then [0x50 + n.toUInt8]
  else if n ≤ 0x7F then 1 :: leBytes 1 n.toNat
  else if n ≤ 0x7FFF then 2 :: leBytes 2 n.toNat
  else if n ≤ 0x7FFFFF then 3 :: leBytes 3 n.toNat
  else if n ≤ 0x7FFFFFFF then 4 :: leBytes 4 n.toNat
  else 5 :: leBytes 4 n.toNat ++ [0]

def outputOpV (flagV : Bool) (op : UInt8) : Bytes :=
  if !flagV then [op]
  else if op = OP_CHECKSIG ∨ op = OP_CHECKMULTISIG ∨ op = OP_NUMEQUAL ∨ op = OP_EQUAL ∨
      op = OP_CHECKSIGVERIFY then [op + 1]
  else [op, OP_VERIFY]

inductive InternalScriptType where
  | sh
  | shWsh
  | wsh
  | tapscript
  deriving DecidableEq, Repr

variable {σ : Type} (dev : Device σ) (wdi : WalletDerivationInfo)

section

variable (isTaproot : Bool)

def scriptPubkey (pubkey : Bytes) : Bytes := if isTaproot then pubkey.drop 1 else pubkey

def pushPubkey (key : KeyExpr) : Query σ Bytes := do
  let pubkey ← getDerivedPubkey dev wdi key
  return (if isTaproot then 32 else 33) :: scriptPubkey isTaproot pubkey

def pushPubkeyHash (key : KeyExpr) : Query σ Bytes := do
  let pubkey ← getDerivedPubkey dev wdi key
  return 20 :: dev.crypto.hash160 (scriptPubkey isTaproot pubkey)

def processPkh (flagV : Bool) (key : KeyExpr) : Query σ Bytes := do
  let hash ← pushPubkeyHash dev wdi isTaproot key
  return [OP_DUP, OP_HASH160] ++ hash ++ [OP_EQUALVERIFY] ++ outputOpV flagV OP_CHECKSIG

def processWpkh (key : KeyExpr) : Query σ Bytes := do
  let pubkey ← getDerivedPubkey dev wdi key
  if isTaproot then throw (.ret (-1))
  else return [OP_0, 20] ++ dev.crypto.hash160 pubkey

/-- The smallest of the unused keys from position `j` on, compared with the smallest one so far, at
first with a key that is larger than all. -/
def smallestPubkey (less : Bytes → Bytes → Bool) (used : List Nat) :
    List KeyExpr → Nat → Option Nat × Bytes → Query σ (Option Nat × Bytes)
  | [], _, best => return best
  | key :: keys, j, best =>
    if j ∈ used then smallestPubkey less used keys (j + 1) best
    else do
      let pubkey ← getDerivedPubkey dev wdi key
      smallestPubkey less used keys (j + 1) (if less pubkey best.2 then (some j, pubkey) else best)

/-- The keys in order. All unused keys are derived again for each of them. If no key is smaller than
the largest value, the bit at position -1 is set. -/
def sortedPubkeys (less : Bytes → Bytes → Bool) (keys : List KeyExpr) : Nat → List Nat → Query σ (List Bytes)
  | 0, _ => return []
  | n + 1, used => do
    match ← smallestPubkey dev wdi less used keys 0 (none, List.replicate 33 0xFF) with
    | (none, _) => throw .undefinedBehaviour
    | (some j, pubkey) => do
      let rest ← sortedPubkeys less keys n (j :: used)
      return pubkey :: rest

def pubkeysInOrder : List KeyExpr → Query σ (List Bytes)
  | [] => return []
  | key :: keys => do
    let pubkey ← getDerivedPubkey dev wdi key
    let rest ← pubkeysInOrder keys
    return pubkey :: rest

def xOnlyLess (a b : Bytes) : Bool := byteArrayLt (a.drop 1) (b.drop 1)

def multisigPubkeys (token : MultisigToken) (keys : List KeyExpr) : Query σ (List Bytes) :=
  match token with
  | .multi | .multiA => pubkeysInOrder dev wdi keys
  | .sortedmulti => sortedPubkeys dev wdi byteArrayLt keys keys.length []
  | .sortedmultiA => sortedPubkeys dev wdi xOnlyLess keys keys.length []

def smallNumber (n : Nat) : UInt8 := 0x50 + UInt8.ofNat n

def processMulti (flagV : Bool) (token : MultisigToken) (k : Nat) (keys : List KeyExpr) : Query σ Bytes :=
  if 16 < keys.length then throw (.ret (-1))
  else do
    let pubkeys ← multisigPubkeys dev wdi token keys
    return smallNumber k :: pubkeys.flatMap (0x21 :: ·) ++ smallNumber keys.length ::
      outputOpV flagV OP_CHECKMULTISIG

def checksigAdds : List Bytes → Bytes
  | [] => []
  | pubkey :: pubkeys =>
    0x20 :: pubkey.drop 1 ++ OP_CHECKSIG ::
      pubkeys.flatMap fun pubkey => 0x20 :: pubkey.drop 1 ++ [OP_CHECKSIGADD]

def processMultiA (flagV : Bool) (token : MultisigToken) (k : Nat) (keys : List KeyExpr) : Query σ Bytes :=
  if 16 < k then throw (.ret (-1))
  else do
    let pubkeys ← multisigPubkeys dev wdi token keys
    return checksigAdds pubkeys ++ smallNumber k :: outputOpV flagV OP_NUMEQUAL

def processMultisig (flagV : Bool) (token : MultisigToken) (k : Nat) (keys : List KeyExpr) : Query σ Bytes :=
  match token with
  | .multi | .sortedmulti => processMulti dev wdi flagV token k keys
  | .multiA | .sortedmultiA => processMultiA dev wdi flagV token k keys

section

-- the compiler of child scripts, given their flag
variable (child : Bool → PolicyNode → Query σ Bytes)

def processCommand (flagV : Bool) : ProcessorCommand → Query σ Bytes
  | .op opcode => return [opcode]
  | .opV opcode => return outputOpV flagV opcode
  | .pushPk key => pushPubkey dev wdi isTaproot key
  | .pushPkh key => pushPubkeyHash dev wdi isTaproot key
  | .pushUint32 n => return pushU32 n
  | .pushHash20 h => return 20 :: h
  | .pushHash32 h => return 32 :: h
  | .processChild script => child false script
  | .processChildV script => child flagV script
  | .processChildVV script => child true script

def processCommands (flagV : Bool) : List ProcessorCommand → Query σ Bytes
  | [] => return []
  | command :: commands => do
    let emitted ← processCommand dev wdi isTaproot child flagV command
    let rest ← processCommands flagV commands
    return emitted ++ rest

def threshChildren : List PolicyNode → Nat → Query σ Bytes
  | [], _ => return []
  | script :: scripts, step => do
    let emitted ← child false script
    let rest ← threshChildren scripts (step + 1)
    return (if 1 < step then [OP_ADD] else []) ++ emitted ++ rest

def processThresh (flagV : Bool) (k : Nat) (scripts : List PolicyNode) : Query σ Bytes := do
  let emitted ← threshChildren child scripts 0
  return emitted ++ (if 2 ≤ scripts.length then [OP_ADD] else []) ++ pushU32 (UInt32.ofNat k) ++
    outputOpV flagV OP_EQUAL

def processNode (flagV : Bool) : PolicyNode → Query σ Bytes
  | .sh _ | .wsh _ | .tr _ _ => throw (.ret (-1))
  | .constant _ token => processCommands dev wdi isTaproot child flagV token.commands
  | .withHash _ token h => processCommands dev wdi isTaproot child flagV (token.commands h)
  | .withKey _ .pk key => processCommands dev wdi isTaproot child flagV (pkCommands key)
  | .withKey _ .pkK key => processCommands dev wdi isTaproot child flagV (pkKCommands key)
  | .withKey _ .pkH key => processCommands dev wdi isTaproot child flagV (pkHCommands key)
  | .withKey _ .pkh key => processPkh dev wdi isTaproot flagV key
  | .withKey _ .wpkh key => processWpkh dev wdi isTaproot key
  | .withUint32 _ token n => processCommands dev wdi isTaproot child flagV (token.commands n)
  | .multisig _ token k keys => processMultisig dev wdi flagV token k keys
  | .andor _ x y z => processCommands dev wdi isTaproot child flagV (andorCommands x y z)
  | .withScript2 _ token x y =>
    processCommands dev wdi isTaproot child flagV (token.commands x y)
  | .thresh _ k scripts => processThresh child flagV k scripts
  | .wrapper _ token x => processCommands dev wdi isTaproot child flagV (token.commands x)

end

end

def fragmentAllowed (type : InternalScriptType) : PolicyNode → Bool
  | .sh _ | .wsh _ | .tr _ _ => false
  | .withKey _ .wpkh _ => type = .sh
  | .multisig _ .multi _ _ | .multisig _ .sortedmulti _ _ => type ≠ .tapscript
  | .multisig _ .multiA _ _ | .multisig _ .sortedmultiA _ _ => type = .tapscript
  | _ => type = .wsh ∨ type = .tapscript

def maxPolicyDepth : Nat := 12

def compileNode (type : InternalScriptType) : Nat → Bool → PolicyNode → Query σ Bytes
  | 0, _, _ => throw (.ret (-1))
  | room + 1, flagV, node =>
    if fragmentAllowed type node then
      processNode dev wdi (type = .tapscript) (compileNode type room) flagV node
    else throw (.ret (-1))

def internalScript (type : InternalScriptType) (policy : PolicyNode) : Query σ Bytes :=
  compileNode dev wdi type maxPolicyDepth false policy

namespace ProcessorCommand

def keys : ProcessorCommand → List KeyExpr
  | pushPk key | pushPkh key => [key]
  | _ => []

def scripts : ProcessorCommand → List PolicyNode
  | processChild script | processChildV script | processChildVV script => [script]
  | _ => []

end ProcessorCommand

def PolicyNode.commands? : PolicyNode → Option (List ProcessorCommand)
  | .constant _ token => some token.commands
  | .withHash _ token h => some (token.commands h)
  | .withKey _ .pk key => some (pkCommands key)
  | .withKey _ .pkK key => some (pkKCommands key)
  | .withKey _ .pkH key => some (pkHCommands key)
  | .withUint32 _ token n => some (token.commands n)
  | .andor _ x y z => some (andorCommands x y z)
  | .withScript2 _ token x y => some (token.commands x y)
  | .wrapper _ token x => some (token.commands x)
  | _ => none

open ProcessorCommand in
theorem PolicyNode.mem_commands {node : PolicyNode} {commands : List ProcessorCommand}
    (h : node.commands? = some commands) :
    (∀ key, key ∈ commands.flatMap ProcessorCommand.keys ↔ key ∈ node.ownKeys) ∧
    ∀ child, child ∈ commands.flatMap ProcessorCommand.scripts ↔ child ∈ node.children := by
  cases node with
  | constant flags token | withHash flags token | withUint32 flags token | withKey flags token
  | withScript2 flags token | wrapper flags token =>
    cases token <;> cases h <;>
      simp [ConstantToken.commands, HashToken.commands, Uint32Token.commands, Script2Token.commands,
        WrapperToken.commands, hashCommands, pkCommands, pkKCommands, pkHCommands,
        ProcessorCommand.keys, ProcessorCommand.scripts, PolicyNode.ownKeys, PolicyNode.children]
  | andor flags x y z =>
    cases h
    simp [andorCommands, ProcessorCommand.keys, ProcessorCommand.scripts, PolicyNode.ownKeys,
      PolicyNode.children]
    grind
  | _ => cases h

variable {dev wdi} {isTaproot : Bool} {child : Bool → PolicyNode → Query σ Bytes}

theorem processNode_of_commands {node : PolicyNode} {commands : List ProcessorCommand}
    (h : node.commands? = some commands) (flagV : Bool) :
    processNode dev wdi isTaproot child flagV node =
      processCommands dev wdi isTaproot child flagV commands := by
  cases node with
  | withKey flags token key => cases token <;> cases h <;> rfl
  | sh | wsh | tr | multisig | thresh => cases h
  | _ =>
    cases h
    rfl

end LedgerBabylon
