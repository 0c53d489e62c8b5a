import LedgerBabylon.Lib.Resumable
import LedgerBabylon.Handler.MerkleizedMap

/-!
# Parsing the previous transaction

`call_psbt_parse_rawtx` streams a serialized transaction through nested resumable parsers. They hash
the fields that enter the transaction id and keep the amount and the script of one output. The two
buffers of a parsing step, the store of unparsed bytes and the new data, are read as one list.
-/

namespace LedgerBabylon

open Endian Resumable

def dbufferReadBytes (n : Nat) (bytes : Bytes) : Option (Bytes × Bytes) :=
  if n ≤ bytes.length then some (bytes.take n, bytes.drop n) else none

def varintTailLen (firstByte : UInt8) : Nat :=
  if firstByte = 0xfd then 2 else if firstByte = 0xfe then 4 else if firstByte = 0xff then 8 else 0

def dbufferReadVarint (bytes : Bytes) : Option (Nat × Bytes) :=
  match bytes with
  | [] => none
  | firstByte :: tail =>
    let len := varintTailLen firstByte
    if tail.length < len then none
    else if firstByte ≤ 0xfc then some (firstByte.toNat, tail)
    else some (leNat (tail.take len), tail.drop len)

/-- A chunk of a script or witness element with `remaining` bytes to come, as a signed `int`; no buffer
has a negative length. -/
def dbufferReadChunk (remaining : UInt32) (bytes : Bytes) : Option (Bytes × Bytes) :=
  if remaining.toNat < 2 ^ 31 then dbufferReadBytes (min 32 remaining.toNat) bytes else none

structure InputState where
  hashed : Bytes
  scriptsigSize : UInt32
  scriptsigCounter : UInt32

def InputState.hashBytes (n : Nat) : Step UInt8 InputState :=
  reading (dbufferReadBytes n) fun s data => { s with hashed := s.hashed ++ data }

def parseRawtxinputTxid : Step UInt8 InputState := InputState.hashBytes 32

def parseRawtxinputVout : Step UInt8 InputState := InputState.hashBytes 4

def parseRawtxinputScriptsigSize : Step UInt8 InputState := reading dbufferReadVarint fun s scriptsigSize =>
    { s with
      scriptsigSize := UInt32.ofNat scriptsigSize
      hashed := s.hashed ++ varintWrite scriptsigSize }

def parseRawtxinputScriptsigInit : Step UInt8 InputState := always fun s => { s with scriptsigCounter := 0 }

def scriptsigChunk : Step UInt8 InputState :=
  ofReader (fun s => dbufferReadChunk (s.scriptsigSize - s.scriptsigCounter)) fun s data =>
    (true, { s with
      hashed := s.hashed ++ data
      scriptsigCounter := s.scriptsigCounter + UInt32.ofNat data.length })

def parseRawtxinputScriptsig : Step UInt8 InputState :=
  doWhile (fun _ bytes => bytes.length) (fun s => s.scriptsigCounter ≠ s.scriptsigSize) scriptsigChunk

def parseRawtxinputSequence : Step UInt8 InputState := InputState.hashBytes 4

def parseRawtxinputSteps : List (Step UInt8 InputState) :=
  [parseRawtxinputTxid, parseRawtxinputVout, parseRawtxinputScriptsigSize,
    parseRawtxinputScriptsigInit, parseRawtxinputScriptsig, parseRawtxinputSequence]

def maxPrevoutScriptpubkeyLen : Nat := 34

structure TxidParserOutputs where
  voutValue : Nat
  voutScriptpubkeyLen : UInt32
  voutScriptpubkey : Memory

structure OutputState where
  hashed : Bytes
  outputs : TxidParserOutputs
  scriptpubkeySize : UInt32
  scriptpubkeyCounter : UInt32

section

-- whether this is the output that was asked for
variable (relevant : Bool)

def parseRawtxoutputValue : Step UInt8 OutputState := reading (dbufferReadBytes 8) fun s value =>
    { s with
      hashed := s.hashed ++ value
      outputs := if relevant then { s.outputs with voutValue := leNat value } else s.outputs }

def parseRawtxoutputScriptpubkeySize : Step UInt8 OutputState :=
  reading dbufferReadVarint fun s scriptpubkeySize =>
    { s with
      scriptpubkeySize := UInt32.ofNat scriptpubkeySize
      hashed := s.hashed ++ varintWrite scriptpubkeySize
      outputs :=
        if relevant then { s.outputs with voutScriptpubkeyLen := UInt32.ofNat scriptpubkeySize }
        else s.outputs }

def parseRawtxoutputScriptpubkeyInit : Step UInt8 OutputState :=
  always fun s => { s with scriptpubkeyCounter := 0 }

/-- One chunk of the script. The step fails, after hashing the chunk, if the script of the relevant
output is too long to be kept. -/
def scriptpubkeyChunk : Step UInt8 OutputState :=
  ofReader (fun s => dbufferReadChunk (s.scriptpubkeySize - s.scriptpubkeyCounter)) fun s data =>
    if relevant && maxPrevoutScriptpubkeyLen < s.outputs.voutScriptpubkeyLen.toNat then
      (false, { s with hashed := s.hashed ++ data })
    else
      (true, { s with
        hashed := s.hashed ++ data
        outputs :=
          if relevant then
            { s.outputs with
              voutScriptpubkey := s.outputs.voutScriptpubkey.write s.scriptpubkeyCounter.toNat data }
          else s.outputs
        scriptpubkeyCounter := s.scriptpubkeyCounter + UInt32.ofNat data.length })

def parseRawtxoutputScriptpubkey : Step UInt8 OutputState :=
  doWhile (fun _ bytes => bytes.length) (fun s => s.scriptpubkeyCounter ≠ s.scriptpubkeySize)
    (scriptpubkeyChunk relevant)

def parseRawtxoutputSteps : List (Step UInt8 OutputState) :=
  [parseRawtxoutputValue relevant, parseRawtxoutputScriptpubkeySize relevant,
    parseRawtxoutputScriptpubkeyInit, parseRawtxoutputScriptpubkey relevant]

end

structure WitnessState where
  witCounter : UInt32
  witStackElCounter : UInt32
  curWitStackElements : UInt32
  curWitElemLen : UInt32
  curWitElBytesRead : UInt32
  isCurWitStackElementsRead : Bool
  isCurWitElemLenRead : Bool

def witnessChunk : Step UInt8 WitnessState :=
  ofReader (fun w => dbufferReadChunk (w.curWitElemLen - w.curWitElBytesRead)) fun w data =>
    (true, { w with curWitElBytesRead := w.curWitElBytesRead + UInt32.ofNat data.length })

def witnessElementBytes : Step UInt8 WitnessState :=
  loop (fun _ bytes => bytes.length) (fun w => w.curWitElBytesRead < w.curWitElemLen) witnessChunk

def witnessElementLen : Step UInt8 WitnessState :=
  skipIf WitnessState.isCurWitElemLenRead <| reading dbufferReadVarint fun w curWitElemLen =>
    { w with
      isCurWitElemLenRead := true
      curWitElemLen := UInt32.ofNat curWitElemLen
      curWitElBytesRead := 0 }

def witnessElement : Step UInt8 WitnessState :=
  andThen (andThen witnessElementLen witnessElementBytes) <| always fun w =>
    { w with witStackElCounter := w.witStackElCounter + 1, isCurWitElemLenRead := false }

def witnessElements : Step UInt8 WitnessState :=
  loop (fun w bytes => 2 * bytes.length + w.isCurWitElemLenRead.toNat)
    (fun w => w.witStackElCounter < w.curWitStackElements) witnessElement

def witnessCount : Step UInt8 WitnessState := skipIf WitnessState.isCurWitStackElementsRead <|
    reading dbufferReadVarint fun w curWitStackElements =>
      { w with
        isCurWitStackElementsRead := true
        curWitStackElements := UInt32.ofNat curWitStackElements
        isCurWitElemLenRead := false
        witStackElCounter := 0 }

def witness : Step UInt8 WitnessState := andThen (andThen witnessCount witnessElements) <| always fun w =>
    { w with witCounter := w.witCounter + 1, isCurWitStackElementsRead := false }

def witnesses (nInputs : UInt32) : Step UInt8 WitnessState :=
  loop (fun w bytes => 2 * bytes.length + w.isCurWitStackElementsRead.toNat)
    (fun w => w.witCounter < nInputs) witness

/-- The state of the transaction parser. In the source the inputs, outputs and witnesses share memory;
each phase initializes its own. -/
structure TxState where
  hashed : Bytes
  isSegwit : Bool
  nInputs : UInt32
  nOutputs : UInt32
  inCounter : UInt32
  inputStep : Nat
  scriptsigSize : UInt32
  scriptsigCounter : UInt32
  outCounter : UInt32
  outputStep : Nat
  scriptpubkeySize : UInt32
  scriptpubkeyCounter : UInt32
  witnessState : WitnessState
  outputIndex : Int
  outputs : TxidParserOutputs

namespace TxState

def input (t : TxState) : Nat × InputState := (t.inputStep, ⟨t.hashed, t.scriptsigSize, t.scriptsigCounter⟩)

def setInput (t : TxState) (i : Nat × InputState) : TxState :=
  { t with
    inputStep := i.1
    hashed := i.2.hashed
    scriptsigSize := i.2.scriptsigSize
    scriptsigCounter := i.2.scriptsigCounter }

def output (t : TxState) : Nat × OutputState :=
  (t.outputStep, ⟨t.hashed, t.outputs, t.scriptpubkeySize, t.scriptpubkeyCounter⟩)

def setOutput (t : TxState) (o : Nat × OutputState) : TxState :=
  { t with
    outputStep := o.1
    hashed := o.2.hashed
    outputs := o.2.outputs
    scriptpubkeySize := o.2.scriptpubkeySize
    scriptpubkeyCounter := o.2.scriptpubkeyCounter }

def relevant (t : TxState) : Bool := t.outputIndex ≠ -1 && (t.outCounter.toNat : Int) = t.outputIndex % 2 ^ 32

def hashBytes : Step UInt8 TxState :=
  reading (dbufferReadBytes 4) fun t data => { t with hashed := t.hashed ++ data }

end TxState

def parseRawtxVersion : Step UInt8 TxState := TxState.hashBytes

def readSegwitFlag (bytes : Bytes) : Option (Option UInt8 × Bytes) :=
  match bytes with
  | [] => none
  | firstByte :: tail =>
    if firstByte ≠ 0 then some (none, bytes)
    else
      match tail with
      | [] => none
      | flag :: rest => some (some flag, rest)

def parseRawtxCheckSegwit : Step UInt8 TxState := ofReader (fun _ => readSegwitFlag) fun t flag =>
    match flag with
    | none => (true, { t with isSegwit := false })
    | some flag => if flag ≠ 0x01 then (false, t) else (true, { t with isSegwit := true })

def parseRawtxInputCount : Step UInt8 TxState := reading dbufferReadVarint fun t nInputs =>
    { t with nInputs := UInt32.ofNat nInputs, hashed := t.hashed ++ varintWrite nInputs }

def parseRawtxInputsInit : Step UInt8 TxState := always fun t => { t with inCounter := 0, inputStep := 0 }

/-- The steps of one input. The result of `parser_run` is stored in a `bool`, which takes an error for
success. -/
def runInput : Step UInt8 TxState :=
  ignoreError (on TxState.input TxState.setInput fun _ => run parseRawtxinputSteps)

def parseRawtxInput : Step UInt8 TxState :=
  andThen runInput <| always fun t => { t with inCounter := t.inCounter + 1, inputStep := 0 }

def parseRawtxInputs : Step UInt8 TxState :=
  loop (fun t bytes => 2 * bytes.length + (decide (0 < t.inputStep)).toNat)
    (fun t => t.inCounter < t.nInputs) parseRawtxInput

def parseRawtxOutputCount : Step UInt8 TxState := reading dbufferReadVarint fun t nOutputs =>
    { t with nOutputs := UInt32.ofNat nOutputs, hashed := t.hashed ++ varintWrite nOutputs }

def parseRawtxOutputsInit : Step UInt8 TxState := always fun t => { t with outCounter := 0, outputStep := 0 }

def runOutput : Step UInt8 TxState :=
  ignoreError (on TxState.output TxState.setOutput fun t => run (parseRawtxoutputSteps t.relevant))

def parseRawtxOutput : Step UInt8 TxState :=
  andThen runOutput <| always fun t => { t with outCounter := t.outCounter + 1, outputStep := 0 }

def parseRawtxOutputs : Step UInt8 TxState :=
  loop (fun t bytes => 2 * bytes.length + (decide (0 < t.outputStep)).toNat)
    (fun t => t.outCounter < t.nOutputs) parseRawtxOutput

def parseRawtxWitnessesInit : Step UInt8 TxState := always fun t =>
    { t with witnessState := { t.witnessState with witCounter := 0, isCurWitStackElementsRead := false } }

def parseRawtxWitnesses : Step UInt8 TxState := skipIf (fun t => !t.isSegwit) <|
    on TxState.witnessState (fun t w => { t with witnessState := w }) fun t => witnesses t.nInputs

def parseRawtxLocktime : Step UInt8 TxState := TxState.hashBytes

def parseRawtxSteps : List (Step UInt8 TxState) :=
  [parseRawtxVersion, parseRawtxCheckSegwit, parseRawtxInputCount, parseRawtxInputsInit,
    parseRawtxInputs, parseRawtxOutputCount, parseRawtxOutputsInit, parseRawtxOutputs,
    parseRawtxWitnessesInit, parseRawtxWitnesses, parseRawtxLocktime]

/-- The parser after `call_psbt_parse_rawtx` has initialized it. The outputs are whatever the caller's
memory holds. -/
def initialTxState (outputIndex : Int) (outputs : TxidParserOutputs) : TxState where
  hashed := []
  isSegwit := false
  nInputs := 0
  nOutputs := 0
  inCounter := 0
  inputStep := 0
  scriptsigSize := 0
  scriptsigCounter := 0
  outCounter := 0
  outputStep := 0
  scriptpubkeySize := 0
  scriptpubkeyCounter := 0
  witnessState := ⟨0, 0, 0, 0, 0, false, false⟩
  outputIndex := outputIndex
  outputs := outputs

/-- `psbt_parse_rawtx_state_t`: the parser with its store of 32 bytes and the error flag. -/
abbrev RawtxFlow := Fed UInt8 (Nat × TxState)

def rawtxFlowInit (outputIndex : Int) (outputs : TxidParserOutputs) : RawtxFlow :=
  ⟨(0, initialTxState outputIndex outputs), [], false⟩

def cbProcessData (flow : RawtxFlow) (data : Bytes) : RawtxFlow := feed 32 (run parseRawtxSteps) flow data

def callPsbtParseRawtx (sha256 : Bytes → Digest) (map : MerkleizedMapCommitment)
    (key : Bytes) (outputIndex : Int) (outputs : TxidParserOutputs) :
    Cmd (TxidParserOutputs × Digest) := do
  let valueHash ← orRet (-1) (callGetMerkleizedMapValueHash sha256 map key)
  let (_, flow) ← orRet (-1) (callStreamPreimage sha256 valueHash (fun _ flow => flow)
    (fun m data flow => cbProcessData flow (m.read data.ptr data.size))
    (rawtxFlowInit outputIndex outputs))
  require (-1) (!flow.failed)
  let t := flow.state.2
  return (t.outputs, sha256 (sha256 t.hashed).bytes)

end LedgerBabylon
