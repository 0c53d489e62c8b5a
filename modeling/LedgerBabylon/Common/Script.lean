import LedgerBabylon.Common.SegwitAddr
import LedgerBabylon.Crypto

/-!
# Output scripts

A script is shown to the user as its address, or as the list of what it pushes after `OP_RETURN`.
-/

namespace LedgerBabylon

open Endian

def OP_0 : UInt8 := 0x00
def OP_PUSHDATA1 : UInt8 := 0x4C
def OP_PUSHDATA2 : UInt8 := 0x4D
def OP_PUSHDATA4 : UInt8 := 0x4E
def OP_1NEGATE : UInt8 := 0x4F
def OP_RESERVED : UInt8 := 0x50
def OP_1 : UInt8 := 0x51
def OP_16 : UInt8 := 0x60
def OP_IF : UInt8 := 0x63
def OP_NOTIF : UInt8 := 0x64
def OP_ELSE : UInt8 := 0x67
def OP_ENDIF : UInt8 := 0x68
def OP_VERIFY : UInt8 := 0x69
def OP_RETURN : UInt8 := 0x6A
def OP_TOALTSTACK : UInt8 := 0x6B
def OP_FROMALTSTACK : UInt8 := 0x6C
def OP_IFDUP : UInt8 := 0x73
def OP_DUP : UInt8 := 0x76
def OP_SWAP : UInt8 := 0x7C
def OP_SIZE : UInt8 := 0x82
def OP_EQUAL : UInt8 := 0x87
def OP_EQUALVERIFY : UInt8 := 0x88
def OP_0NOTEQUAL : UInt8 := 0x92
def OP_ADD : UInt8 := 0x93
def OP_BOOLAND : UInt8 := 0x9A
def OP_BOOLOR : UInt8 := 0x9B
def OP_NUMEQUAL : UInt8 := 0x9C
def OP_RIPEMD160 : UInt8 := 0xA6
def OP_SHA256 : UInt8 := 0xA8
def OP_HASH160 : UInt8 := 0xA9
def OP_HASH256 : UInt8 := 0xAA
def OP_CHECKSIG : UInt8 := 0xAC
def OP_CHECKSIGVERIFY : UInt8 := 0xAD
def OP_CHECKMULTISIG : UInt8 := 0xAE
def OP_CLTV : UInt8 := 0xB1
def OP_CSV : UInt8 := 0xB2
def OP_CHECKSIGADD : UInt8 := 0xBA

inductive Coin where
  | bitcoinTestnet
  | bitcoin
  deriving DecidableEq, Repr

namespace Coin

def p2pkhVersion : Coin → Nat
  | .bitcoinTestnet => 111
  | .bitcoin => 0

def p2shVersion : Coin → Nat
  | .bitcoinTestnet => 196
  | .bitcoin => 5

def nativeSegwitHrp : Coin → Bytes
  | .bitcoinTestnet => text "tb"
  | .bitcoin => text "bc"

def coinidShort : Coin → Bytes
  | .bitcoinTestnet => text "TEST"
  | .bitcoin => text "BTC"

end Coin

inductive ScriptType where
  | p2pkh
  | p2sh
  | p2wpkh
  | p2wsh
  | p2tr
  /-- a valid but undefined segwit script -/
  | unknownSegwit
  deriving DecidableEq

def getScriptType (script : Bytes) : Option ScriptType :=
  let at_ i := script.getD i 0
  if script.length = 25 ∧ at_ 0 = OP_DUP ∧ at_ 1 = OP_HASH160 ∧ at_ 2 = 0x14 ∧ at_ 23 = OP_EQUALVERIFY ∧
      at_ 24 = OP_CHECKSIG then some .p2pkh
  else if script.length = 23 ∧ at_ 0 = OP_HASH160 ∧ at_ 1 = 0x14 ∧ at_ 22 = OP_EQUAL then some .p2sh
  else if script.length = 22 ∧ at_ 0 = 0x00 ∧ at_ 1 = 0x14 then some .p2wpkh
  else if script.length = 34 ∧ at_ 0 = OP_0 ∧ at_ 1 = 0x20 then some .p2wsh
  else if script.length = 34 ∧ at_ 0 = OP_1 ∧ at_ 1 = 0x20 then some .p2tr
  -- potentially valid future segwit scripts
  else if 4 ≤ script.length ∧ script.length ≤ 42 ∧ (at_ 0 = 0 ∨ (OP_1 ≤ at_ 0 ∧ at_ 0 ≤ OP_16)) ∧
      script.length = 1 + 1 + (at_ 1).toNat then some .unknownSegwit
  else none

def getScriptAddress (crypto : Crypto) (coin : Coin) (script : Bytes) (outLen : Nat) : Option Bytes :=
  match getScriptType script with
  | some .p2pkh => crypto.base58EncodeAddress (script.drop 3) coin.p2pkhVersion (outLen - 1)
  | some .p2sh => crypto.base58EncodeAddress (script.drop 2) coin.p2shVersion (outLen - 1)
  | some _ =>
    let version := if script.getD 0 0 = 0 then 0 else (script.getD 0 0).toNat - 80
    if outLen < 73 + coin.nativeSegwitHrp.length then none
    else segwitAddrEncode coin.nativeSegwitHrp version ((script.drop 2).take (script.getD 1 0).toNat)
  | none => none

def lowercaseHex (digit : Nat) : UInt8 := UInt8.ofNat (if digit < 10 then 0x30 + digit else 0x57 + digit)

def hexText (data : Bytes) : Bytes :=
  data.flatMap fun byte => [lowercaseHex (byte.toNat / 16), lowercaseHex (byte.toNat % 16)]

/-- A push of so many bytes: its text and the rest of the script. Single bytes that have an opcode are
not standard. -/
def formatData (length : Nat) (script : Bytes) : Option (Bytes × Bytes) :=
  if script.length < length then none
  else if length = 1 ∧ (script.getD 0 0 = 0x81 ∨ (1 ≤ script.getD 0 0 ∧ script.getD 0 0 ≤ 16)) then none
  else some (text "0x" ++ hexText (script.take length), script.drop length)

def formatPush (opcode : UInt8) (script : Bytes) : Option (Bytes × Bytes) :=
  if OP_16 < opcode ∨ opcode = OP_RESERVED ∨ opcode = OP_PUSHDATA2 ∨ opcode = OP_PUSHDATA4 then none
  else if opcode = OP_0 then some (text "0", script)
  else if 1 ≤ opcode ∧ opcode ≤ 75 then formatData opcode.toNat script
  else if opcode = OP_PUSHDATA1 then
    match script with
    | [] => none
    -- a shorter push has an opcode of its own
    | length :: script => if length ≤ 75 then none else formatData length.toNat script
  else if opcode = OP_1NEGATE then some (text "-1", script)
  else if OP_1 ≤ opcode ∧ opcode ≤ OP_16 then
    let num := opcode - 0x50
    some (if 10 ≤ num then [0x31, 0x30 + (num - 10)] else [0x30 + num], script)
  else none

def formatPushes : Nat → Bytes → Option Bytes
  | _, [] => some []
  | 0, _ :: _ => none
  | n + 1, opcode :: script => do
    let (push, rest) ← formatPush opcode script
    let pushes ← formatPushes n rest
    return push ++ 0x20 :: pushes

/-- `format_opscript_script`; the text without its terminator, which takes the place of the last space. -/
def formatOpscriptScript (script : Bytes) : Option Bytes :=
  match script with
  | [] => none
  | opcode :: rest =>
    if opcode ≠ OP_RETURN then none
    else if 83 < script.length then none
    else if script.length = 1 then some (text "OP_RETURN ").dropLast
    else do
      let pushes ← formatPushes 5 rest
      return (text "OP_RETURN " ++ pushes).dropLast

def isOpreturn (script : Bytes) : Bool :=
  0 < script.length && script.length ≤ 83 && script.getD 0 0 = OP_RETURN

def maxOpreturnOutputDescSize : Nat := 9 + 5 * 3 + 2 * 80 + 1

/-- `MAX_ADDRESS_LENGTH_STR`, in which the size of the prefix counts its terminator. -/
def maxAddressLengthStr (coin : Coin) : Nat := 72 + (coin.nativeSegwitHrp.length + 1)

def maxOutputScriptDescSize (coin : Coin) : Nat := max (maxAddressLengthStr coin + 1) maxOpreturnOutputDescSize

def formatScript (crypto : Crypto) (coin : Coin) (script : Bytes) : Option Bytes :=
  match getScriptAddress crypto coin script (maxOutputScriptDescSize coin) with
  | some address => some address
  | none => if isOpreturn script then formatOpscriptScript script else none

end LedgerBabylon
