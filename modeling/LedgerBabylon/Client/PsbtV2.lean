import LedgerBabylon.Client.Interpreter
import Mathlib.Data.Finmap
import Mathlib.Data.List.Sort

/-!
# PSBTs of the JavaScript client

A PSBT is a global map, one map per input and one map per output. On the wire a map is its pairs in the
order of their keys, each key and each value after its length, and then a zero. No key has length zero,
which is why a reader finds the end of a map; it learns the numbers of maps from the global one.
-/

namespace LedgerBabylon.JavaScript

open Endian List

abbrev Buffer := { bytes : Bytes // bytes.length ≤ maxSafeInteger }

abbrev PsbtMap := AList fun _ : Buffer => Buffer

structure PsbtV2 where
  globalMap : PsbtMap
  inputMaps : List PsbtMap
  outputMaps : List PsbtMap

inductive KeyType
  | unsignedTx | txVersion | fallbackLocktime | inputCount | outputCount | version
  | previousTxid | outputIndex | sequence
  | amount | script

def KeyType.byte : KeyType → UInt8
  | unsignedTx => 0x00
  | txVersion => 0x02
  | fallbackLocktime => 0x03
  | inputCount => 0x04
  | outputCount => 0x05
  | version => 0xfb
  | previousTxid => 0x0e
  | outputIndex => 0x0f
  | sequence => 0x10
  | amount => 0x03
  | script => 0x04

def psbtMagicBytes : Bytes := [0x70, 0x73, 0x62, 0x74, 0xff]

def sanitizeBigintToNumber (n : Nat) : Option Nat :=
  if n > maxSafeInteger then none else some n

def createVarint (value : Nat) : Option Bytes := (sanitizeBigintToNumber value).map varintWrite

def serializeKeyPair (key value : Buffer) : Option Bytes :=
  match key.val with
  | [] => none
  | keyType :: keyData => do
    let keyLen ← createVarint (1 + keyData.length)
    let valueLen ← createVarint value.val.length
    return keyLen ++ (keyType :: keyData) ++ valueLen ++ value.val

def serializeMap (map : PsbtMap) : Option Bytes := do
  let sorted := map.entries.insertionSort fun a b => a.1.val ≤ b.1.val
  let pairs ← sorted.mapM fun pair => serializeKeyPair pair.1 pair.2
  return pairs.flatten ++ [0]

def PsbtV2.serialize (psbt : PsbtV2) : Option Bytes := do
  let globalMap ← serializeMap psbt.globalMap
  let inputMaps ← psbt.inputMaps.mapM serializeMap
  let outputMaps ← psbt.outputMaps.mapM serializeMap
  return psbtMagicBytes ++ globalMap ++ inputMaps.flatten ++ outputMaps.flatten

def readSlice (n : Nat) (s : Bytes) : Option (Buffer × Bytes) :=
  if h : n ≤ s.length ∧ n ≤ maxSafeInteger then
    some (⟨s.take n, (List.length_take_le n s).trans h.2⟩, s.drop n)
  else none

def readVarSlice (s : Bytes) : Option (Buffer × Bytes) := do
  let (n, s) ← readVarint s
  readSlice (← sanitizeBigintToNumber n) s

def readKeyPair (map : PsbtMap) (s : Bytes) : Option (Option PsbtMap × Bytes) := do
  let (n, s) ← readVarint s
  let keyLen ← sanitizeBigintToNumber n
  if keyLen = 0 then return (none, s)
  else
    -- the type, which is one byte, and the data
    let (key, s) ← readSlice keyLen s
    let (value, s) ← readVarSlice s
    return (some (map.insert key value), s)

def readKeyPairs : Nat → PsbtMap → Bytes → Option (PsbtMap × Bytes)
  | 0, _, _ => none
  | rounds + 1, map, s => do
    match ← readKeyPair map s with
    | (none, s) => return (map, s)
    | (some map, s) => readKeyPairs rounds map s

def readMap (s : Bytes) : Option (PsbtMap × Bytes) := readKeyPairs (s.length + 1) ∅ s

def readMaps : Nat → Bytes → Option (List PsbtMap × Bytes)
  | 0, s => some ([], s)
  | n + 1, s => do
    let (map, s) ← readMap s
    let (maps, s) ← readMaps n s
    return (map :: maps, s)

def KeyType.key (keyType : KeyType) : Buffer := ⟨[keyType.byte], by simp [maxSafeInteger]⟩

def PsbtMap.get (map : PsbtMap) (keyType : KeyType) : Option Buffer := map.lookup keyType.key

def PsbtMap.set (map : PsbtMap) (keyType : KeyType) (value : Buffer) : PsbtMap := map.insert keyType.key value

def readUInt32LE (b : Buffer) : Option Nat :=
  if b.val.length < 4 then none else some (leNat (b.val.take 4))

def readInt32LE (b : Buffer) : Option Int := (readUInt32LE b).map fun n => (BitVec.ofNat 32 n).toInt

def fromVarint (b : Buffer) : Option Nat := do
  sanitizeBigintToNumber (← readVarint b.val).1

def getGlobalPsbtVersion (globalMap : PsbtMap) : Option Nat := do
  readUInt32LE (← globalMap.get .version)

def getGlobalInputCount (globalMap : PsbtMap) : Option Nat := do
  fromVarint (← globalMap.get .inputCount)

def getGlobalOutputCount (globalMap : PsbtMap) : Option Nat := do
  fromVarint (← globalMap.get .outputCount)

structure TxInput where
  hash : Buffer
  index : Nat
  sequence : Nat

structure TxOutput where
  value : Nat
  script : Buffer

structure Transaction where
  version : Int
  locktime : Nat
  ins : List TxInput
  outs : List TxOutput

def uint32LE (n : Int) : Option Buffer :=
  if 0 ≤ n ∧ n < 2 ^ 32 then some ⟨leBytes 4 n.toNat, by simp [maxSafeInteger]⟩ else none

def uint64LE (n : Nat) : Option Buffer :=
  if n > maxSafeInteger then none else some ⟨leBytes 8 n, by simp [maxSafeInteger]⟩

theorem length_varintWrite_le (n : Nat) : (varintWrite n).length ≤ maxSafeInteger := by
  rw [length_varintWrite]
  unfold varintSize
  split_ifs <;> decide

def varint (n : Nat) : Option Buffer :=
  if n > maxSafeInteger then none else some ⟨varintWrite n, length_varintWrite_le n⟩

def setInput (input : TxInput) (map : PsbtMap) : Option PsbtMap := do
  let outputIndex ← uint32LE input.index
  let sequence ← uint32LE input.sequence
  return ((map.set .previousTxid input.hash).set .outputIndex outputIndex).set .sequence sequence

def setOutput (output : TxOutput) (map : PsbtMap) : Option PsbtMap := do
  let amount ← uint64LE output.value
  return (map.set .amount amount).set .script output.script

def setMaps {α : Type} (set : α → PsbtMap → Option PsbtMap) : List α → List PsbtMap → Option (List PsbtMap)
  | [], maps => some maps
  | a :: rest, maps => do return (← set a (maps.headD ∅)) :: (← setMaps set rest maps.tail)

section

-- `bjs.Transaction.fromBuffer`
variable (fromBuffer : Buffer → Option Transaction)

def normalizeToV2 (psbt : PsbtV2) : Option PsbtV2 :=
  match psbt.globalMap.get .version with
  | some version => do if (← readInt32LE version) = 2 then return psbt else none
  | none => do
    let tx ← fromBuffer (← psbt.globalMap.get .unsignedTx)
    let globalMap := psbt.globalMap.set .version (← uint32LE 2)
    let globalMap := globalMap.set .txVersion (← uint32LE tx.version)
    let globalMap := globalMap.set .fallbackLocktime (← uint32LE tx.locktime)
    let globalMap := globalMap.set .inputCount (← varint tx.ins.length)
    let globalMap := globalMap.set .outputCount (← varint tx.outs.length)
    let inputMaps ← setMaps setInput tx.ins psbt.inputMaps
    let outputMaps ← setMaps setOutput tx.outs psbt.outputMaps
    return ⟨globalMap.erase KeyType.unsignedTx.key, inputMaps, outputMaps⟩

/-- The magic, then the global map and as many maps as it says that there are inputs and outputs. -/
def PsbtV2.deserialize (psbt : Bytes) : Option PsbtV2 := do
  let (magic, s) ← readExact 5 psbt
  if magic ≠ psbtMagicBytes then none
  else
    let (globalMap, s) ← readMap s
    let psbtVersion := (getGlobalPsbtVersion globalMap).getD 0
    if psbtVersion ≠ 0 ∧ psbtVersion ≠ 2 then none
    else
      let (nInputs, nOutputs) ←
        if psbtVersion = 0 then do
          let tx ← fromBuffer (← globalMap.get .unsignedTx)
          pure (tx.ins.length, tx.outs.length)
        else do pure (← getGlobalInputCount globalMap, ← getGlobalOutputCount globalMap)
      let (inputMaps, s) ← readMaps nInputs s
      let (outputMaps, _) ← readMaps nOutputs s
      normalizeToV2 fromBuffer ⟨globalMap, inputMaps, outputMaps⟩

end

theorem sanitizeBigintToNumber_of_le {n : Nat} (h : n ≤ maxSafeInteger) : sanitizeBigintToNumber n = some n :=
  if_neg (Nat.not_lt.mpr h)

theorem readVarint_length (b : Buffer) (rest : Bytes) :
    readVarint (varintWrite b.val.length ++ rest) = some (b.val.length, rest) :=
  readVarint_varintWrite (b.property.trans_lt (by decide)) rest

theorem readSlice_append (b : Buffer) (rest : Bytes) :
    readSlice b.val.length (b.val ++ rest) = some (b, rest) := by
  have h : b.val.length ≤ (b.val ++ rest).length ∧ b.val.length ≤ maxSafeInteger := ⟨by simp, b.property⟩
  rw [readSlice, dif_pos h]
  simp only [take_left, drop_left]

theorem readVarSlice_append (b : Buffer) (rest : Bytes) :
    readVarSlice (varintWrite b.val.length ++ b.val ++ rest) = some (b, rest) := by
  rw [readVarSlice, append_assoc, readVarint_length]
  simp only [Option.bind_eq_bind, Option.bind_some, sanitizeBigintToNumber_of_le b.property, readSlice_append]

def pairBytes (pair : Sigma fun _ : Buffer => Buffer) : Bytes :=
  varintWrite pair.1.val.length ++ pair.1.val ++ (varintWrite pair.2.val.length ++ pair.2.val)

theorem serializeKeyPair_eq {pair : Sigma fun _ : Buffer => Buffer} (h : pair.1.val ≠ []) :
    serializeKeyPair pair.1 pair.2 = some (pairBytes pair) := by
  obtain ⟨⟨key, hkey⟩, value, hvalue⟩ := pair
  cases key with
  | nil => exact absurd rfl h
  | cons keyType keyData =>
    rw [length_cons] at hkey
    simp [serializeKeyPair, createVarint, Nat.add_comm 1, sanitizeBigintToNumber_of_le hkey,
      sanitizeBigintToNumber_of_le hvalue, pairBytes]

theorem readKeyPair_pairBytes (map : PsbtMap) {pair : Sigma fun _ : Buffer => Buffer}
    (h : pair.1.val ≠ []) (rest : Bytes) :
    readKeyPair map (pairBytes pair ++ rest) = some (some (map.insert pair.1 pair.2), rest) := by
  have hlen : pair.1.val.length ≠ 0 := by simpa using h
  rw [readKeyPair, pairBytes, append_assoc, append_assoc, readVarint_length]
  simp only [Option.bind_eq_bind, Option.bind_some, sanitizeBigintToNumber_of_le pair.1.property,
    if_neg hlen, readSlice_append, readVarSlice_append]
  rfl

theorem readKeyPair_zero (map : PsbtMap) (rest : Bytes) :
    readKeyPair map (0 :: rest) = some (none, rest) := rfl

theorem readKeyPairs_pairBytes (rest : Bytes) {pairs : List (Sigma fun _ : Buffer => Buffer)}
    (hkeys : ∀ pair ∈ pairs, pair.1.val ≠ []) :
    ∀ (rounds : Nat) (map : PsbtMap), (pairs.map Sigma.fst).Nodup → (∀ pair ∈ pairs, pair.1 ∉ map) →
      pairs.length < rounds →
      ∃ map', readKeyPairs rounds map (pairs.flatMap pairBytes ++ 0 :: rest) = some (map', rest) ∧
        map'.entries = pairs.reverse ++ map.entries := by
  -- one round per pair, and one for the zero
  induction pairs with
  | nil =>
    intro rounds map _ _ hrounds
    obtain ⟨rounds, rfl⟩ := Nat.exists_eq_add_of_lt hrounds
    refine ⟨map, ?_, rfl⟩
    simp [readKeyPairs, readKeyPair_zero]
  | cons pair pairs ih =>
    intro rounds map hnodup hnew hrounds
    obtain ⟨rounds, rfl⟩ := Nat.exists_eq_add_of_lt (Nat.zero_lt_of_lt hrounds)
    obtain ⟨hpair, hnodup⟩ := nodup_cons.mp hnodup
    have hmap := hnew pair mem_cons_self
    obtain ⟨map', hread, hentries⟩ := ih (fun p hp => hkeys p (mem_cons_of_mem _ hp))
      rounds (map.insert pair.1 pair.2) hnodup
      (by
        intro p hp hmem
        rcases (AList.mem_insert map).mp hmem with heq | hmem
        · exact hpair (heq ▸ mem_map_of_mem hp)
        · exact hnew p (mem_cons_of_mem _ hp) hmem)
      (by simp only [length_cons] at hrounds; omega)
    refine ⟨map', ?_, ?_⟩
    · rw [flatMap_cons, append_assoc, Nat.zero_add, readKeyPairs,
        readKeyPair_pairBytes map (hkeys pair mem_cons_self)]
      exact hread
    · rw [hentries, AList.entries_insert_of_notMem hmap, reverse_cons, append_assoc, singleton_append]

def sortedPairs (map : PsbtMap) : List (Sigma fun _ : Buffer => Buffer) :=
  map.entries.insertionSort fun a b => a.1.val ≤ b.1.val

theorem perm_sortedPairs (map : PsbtMap) : (sortedPairs map).Perm map.entries := perm_insertionSort _ _

def mapBytes (map : PsbtMap) : Bytes := (sortedPairs map).flatMap pairBytes ++ [0]

def KeysNonempty (map : PsbtMap) : Prop := ∀ pair ∈ map.entries, pair.1.val ≠ []

theorem mapM_eq_some_map {α β : Type} {f : α → Option β} {g : α → β} {l : List α}
    (h : ∀ a ∈ l, f a = some (g a)) : l.mapM f = some (l.map g) := by
  induction l with
  | nil => rfl
  | cons a l ih =>
    rw [mapM_cons, h a mem_cons_self, ih fun b hb => h b (mem_cons_of_mem a hb)]
    rfl

theorem serializeMap_eq {map : PsbtMap} (hkeys : KeysNonempty map) :
    serializeMap map = some (mapBytes map) := by
  have hpairs : (sortedPairs map).mapM (fun pair => serializeKeyPair pair.1 pair.2) =
      some ((sortedPairs map).map pairBytes) := by
    apply mapM_eq_some_map
    intro pair hpair
    exact serializeKeyPair_eq (hkeys pair ((perm_sortedPairs map).mem_iff.mp hpair))
  rw [sortedPairs] at hpairs
  rw [serializeMap, hpairs]
  rfl

theorem length_le_length_flatMap_pairBytes {pairs : List (Sigma fun _ : Buffer => Buffer)}
    (hkeys : ∀ pair ∈ pairs, pair.1.val ≠ []) : pairs.length ≤ (pairs.flatMap pairBytes).length := by
  induction pairs with
  | nil => simp
  | cons pair pairs ih =>
    have hrest := ih fun p hp => hkeys p (mem_cons_of_mem pair hp)
    have hkey := length_pos_iff.mpr (hkeys pair mem_cons_self)
    simp only [flatMap_cons, length_append, length_cons, pairBytes] at hrest ⊢
    omega

/-- What `readMap` reads from the bytes of a map is the same map. -/
theorem readMap_mapBytes {map : PsbtMap} (hkeys : KeysNonempty map) (rest : Bytes) :
    ∃ map', readMap (mapBytes map ++ rest) = some (map', rest) ∧ map'.toFinmap = map.toFinmap := by
  have hperm := perm_sortedPairs map
  have hsorted : ∀ pair ∈ sortedPairs map, pair.1.val ≠ [] :=
    fun pair hpair => hkeys pair (hperm.mem_iff.mp hpair)
  have hnodup : ((sortedPairs map).map Sigma.fst).Nodup := (hperm.map Sigma.fst).nodup_iff.mpr map.keys_nodup
  have hlen := length_le_length_flatMap_pairBytes hsorted
  obtain ⟨map', hread, hentries⟩ := readKeyPairs_pairBytes rest hsorted
    ((mapBytes map ++ rest).length + 1) ∅ hnodup (fun _ _ => AList.notMem_empty _)
    (by simp only [mapBytes, length_append]; omega)
  refine ⟨map', ?_, ?_⟩
  · rw [readMap]
    rw [mapBytes, append_assoc] at hread ⊢
    exact hread
  · rw [AList.toFinmap_eq, hentries, AList.empty_entries, append_nil]
    exact (reverse_perm _).trans hperm

theorem readMaps_mapBytes (rest : Bytes) {maps : List PsbtMap} (hkeys : ∀ map ∈ maps, KeysNonempty map) :
    ∃ maps', readMaps maps.length ((maps.map mapBytes).flatten ++ rest) = some (maps', rest) ∧
      maps'.map AList.toFinmap = maps.map AList.toFinmap := by
  induction maps with
  | nil => exact ⟨[], rfl, rfl⟩
  | cons map maps ih =>
    obtain ⟨maps', hmaps, hsame⟩ := ih fun m hm => hkeys m (mem_cons_of_mem map hm)
    obtain ⟨map', hmap, heq⟩ := readMap_mapBytes (hkeys map mem_cons_self)
      ((maps.map mapBytes).flatten ++ rest)
    refine ⟨map' :: maps', ?_, by rw [map_cons, map_cons, heq, hsame]⟩
    rw [map_cons, flatten_cons, append_assoc, length_cons, readMaps, hmap]
    simp only [Option.bind_eq_bind, Option.bind_some, hmaps]
    rfl

theorem get_eq_of_toFinmap_eq {map map' : PsbtMap} (h : map'.toFinmap = map.toFinmap) (keyType : KeyType) :
    map'.get keyType = map.get keyType :=
  AList.perm_lookup (AList.toFinmap_eq.mp h)

structure PsbtV2.SameMaps (psbt psbt' : PsbtV2) : Prop where
  globalMap : psbt.globalMap.toFinmap = psbt'.globalMap.toFinmap
  inputMaps : psbt.inputMaps.map AList.toFinmap = psbt'.inputMaps.map AList.toFinmap
  outputMaps : psbt.outputMaps.map AList.toFinmap = psbt'.outputMaps.map AList.toFinmap

structure PsbtV2.States (psbt : PsbtV2) : Prop where
  version : getGlobalPsbtVersion psbt.globalMap = some 2
  inputCount : getGlobalInputCount psbt.globalMap = some psbt.inputMaps.length
  outputCount : getGlobalOutputCount psbt.globalMap = some psbt.outputMaps.length

theorem normalizeToV2_of_version {psbt : PsbtV2} (h : getGlobalPsbtVersion psbt.globalMap = some 2)
    (fromBuffer : Buffer → Option Transaction) : normalizeToV2 fromBuffer psbt = some psbt := by
  obtain ⟨version, hget, hread⟩ := Option.bind_eq_some_iff.mp h
  have hint : readInt32LE version = some 2 := by
    rw [readInt32LE, hread]
    rfl
  simp [normalizeToV2, hget, hint]

theorem serialize_eq {psbt : PsbtV2} (hglobal : KeysNonempty psbt.globalMap)
    (hinputs : ∀ map ∈ psbt.inputMaps, KeysNonempty map)
    (houtputs : ∀ map ∈ psbt.outputMaps, KeysNonempty map) :
    psbt.serialize = some (psbtMagicBytes ++ (mapBytes psbt.globalMap ++
      ((psbt.inputMaps.map mapBytes).flatten ++ ((psbt.outputMaps.map mapBytes).flatten ++ [])))) := by
  simp only [PsbtV2.serialize, serializeMap_eq hglobal,
    mapM_eq_some_map fun map hmap => serializeMap_eq (hinputs map hmap),
    mapM_eq_some_map fun map hmap => serializeMap_eq (houtputs map hmap)]
  simp

/-- What an object with its version and its counts serializes to is read back, with the same maps. -/
theorem deserialize_serialize (fromBuffer : Buffer → Option Transaction) (psbt : PsbtV2)
    (hstates : psbt.States) (hglobal : KeysNonempty psbt.globalMap)
    (hinputs : ∀ map ∈ psbt.inputMaps, KeysNonempty map)
    (houtputs : ∀ map ∈ psbt.outputMaps, KeysNonempty map) :
    ∃ bytes psbt', psbt.serialize = some bytes ∧
      PsbtV2.deserialize fromBuffer bytes = some psbt' ∧ psbt'.SameMaps psbt := by
  have hserialize := serialize_eq hglobal hinputs houtputs
  obtain ⟨outputMaps, hreadOutputs, hsameOutputs⟩ := readMaps_mapBytes [] houtputs
  obtain ⟨inputMaps, hreadInputs, hsameInputs⟩ := readMaps_mapBytes
    ((psbt.outputMaps.map mapBytes).flatten ++ []) hinputs
  obtain ⟨globalMap, hreadGlobal, hsame⟩ := readMap_mapBytes hglobal
    ((psbt.inputMaps.map mapBytes).flatten ++ ((psbt.outputMaps.map mapBytes).flatten ++ []))
  have hget := get_eq_of_toFinmap_eq hsame
  have hversion : getGlobalPsbtVersion globalMap = some 2 := by
    rw [getGlobalPsbtVersion, hget]
    exact hstates.version
  have hinputCount : getGlobalInputCount globalMap = some psbt.inputMaps.length := by
    rw [getGlobalInputCount, hget]
    exact hstates.inputCount
  have houtputCount : getGlobalOutputCount globalMap = some psbt.outputMaps.length := by
    rw [getGlobalOutputCount, hget]
    exact hstates.outputCount
  refine ⟨_, ⟨globalMap, inputMaps, outputMaps⟩, hserialize, ?_, hsame, hsameInputs, hsameOutputs⟩
  rw [PsbtV2.deserialize, readExact_append (show psbtMagicBytes.length = 5 from rfl)]
  simp only [Option.bind_eq_bind, Option.bind_some, ne_eq, not_true, if_false, hreadGlobal, hversion,
    hinputCount, houtputCount, Option.getD_some, hreadInputs, hreadOutputs, OfNat.ofNat_ne_zero,
    not_false_iff, true_and, pure]
  apply normalizeToV2_of_version
  exact hversion

def samplePsbt : PsbtV2 where
  globalMap := ((PsbtMap.set ∅ .version ⟨[2, 0, 0, 0], by decide⟩).set .inputCount
    ⟨[1], by decide⟩).set .outputCount ⟨[1], by decide⟩
  inputMaps := [(PsbtMap.set ∅ .sequence ⟨[0xff, 0xff, 0xff, 0xff], by decide⟩).insert
    ⟨[0x06, 0x02, 0x03], by decide⟩ ⟨[], by decide⟩]
  outputMaps := [PsbtMap.set ∅ .script ⟨[0x51], by decide⟩]

theorem deserialize_serialize_samplePsbt :
    samplePsbt.States ∧ ∃ bytes psbt', samplePsbt.serialize = some bytes ∧
      PsbtV2.deserialize (fun _ => none) bytes = some psbt' ∧ psbt'.SameMaps samplePsbt := by
  have hstates : samplePsbt.States := ⟨rfl, rfl, rfl⟩
  refine ⟨hstates, deserialize_serialize _ samplePsbt hstates ?_ ?_ ?_⟩ <;> unfold KeysNonempty <;> decide

end LedgerBabylon.JavaScript
