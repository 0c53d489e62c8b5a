import LedgerBabylon.Common.Policy

/-!
# Miniscript analysis

The attributes that the device computes for a miniscript expression, and the checks it makes of them
before it accepts a policy. Each fragment has a function from the attributes of its children.
-/

namespace LedgerBabylon

open Miniscript

/-- The non-push opcodes, and the keys in executed `CHECKMULTISIG`s to satisfy and to dissatisfy, with
-1 if that is impossible. -/
structure MiniscriptOps where
  count : UInt16
  sat : Int16
  dsat : Int16
  deriving DecidableEq, Repr

/-- The largest stacks to satisfy and to dissatisfy, with -1 if that is impossible. -/
structure MiniscriptStacksize where
  sat : Int16
  dsat : Int16
  deriving DecidableEq, Repr

/-- The kinds of timelocks that occur (`g`, `h` relative, `i`, `j` absolute; time, then height), and
`k`: no combination of time and height. -/
structure Timelocks where
  g : Bool
  h : Bool
  i : Bool
  j : Bool
  k : Bool
  deriving DecidableEq, Repr

structure PolicyNodeExtInfo where
  ops : MiniscriptOps
  ss : MiniscriptStacksize
  scriptSize : UInt16
  s : Bool := false
  f : Bool := false
  e : Bool := false
  m : Bool := true
  locks : Timelocks := ⟨false, false, false, false, true⟩
  x : Bool := true
  deriving DecidableEq, Repr

def sumcheck (a b : Int16) : Int16 :=
  if a < 0 || b < 0 then -1
  else if a.toInt + b.toInt > 32767 then 32767
  else a + b

def maxcheck (a b : Int16) : Int16 := if a < 0 then b else if a > b then a else b

@[simp] theorem sumcheck_nonneg_iff {a b : Int16} : 0 ≤ sumcheck a b ↔ 0 ≤ a ∧ 0 ≤ b := by
  simp only [sumcheck, Bool.or_eq_true, decide_eq_true_eq]
  split_ifs with hneg hmax
  · have hfalse : ¬ (0 : Int16) ≤ -1 := by decide
    rcases hneg with hneg | hneg
    · exact iff_of_false hfalse fun h => Int16.not_lt.mpr h.1 hneg
    · exact iff_of_false hfalse fun h => Int16.not_lt.mpr h.2 hneg
  all_goals
    push Not at hneg
    refine iff_of_true ?_ ⟨Int16.not_lt.mp hneg.1, Int16.not_lt.mp hneg.2⟩
  · decide
  · obtain ⟨ha, hb⟩ := hneg
    rw [Int16.not_lt, Int16.le_iff_toInt_le] at ha hb
    have hzero : (0 : Int16).toInt = 0 := rfl
    rw [Int16.le_iff_toInt_le, Int16.toInt_add, Int.bmod_eq_of_le] <;> omega

@[simp] theorem maxcheck_nonneg_iff {a b : Int16} : 0 ≤ maxcheck a b ↔ 0 ≤ a ∨ 0 ≤ b := by
  simp only [maxcheck]
  split_ifs with hneg hlt
  · exact (or_iff_right (Int16.not_le.mpr hneg)).symm
  · have ha := Int16.not_lt.mp hneg
    exact iff_of_true ha (.inl ha)
  · have ha := Int16.not_lt.mp hneg
    exact iff_of_true (Int16.le_trans ha (Int16.not_lt.mp hlt)) (.inl ha)

def getPushScriptSize (n : Nat) : Nat :=
  if n ≤ 16 then 1
  else if n < 0x80 then 2
  else if n < 0x8000 then 3
  else if n < 0x800000 then 4
  else if n < 0x80000000 then 5
  else 6

namespace Timelocks

def mixed (x y : Timelocks) : Bool := x.g && y.h || x.h && y.g || x.i && y.j || x.j && y.i

def either (x y : Timelocks) : Timelocks := ⟨x.g || y.g, x.h || y.h, x.i || y.i, x.j || y.j, x.k && y.k⟩

def both (x y : Timelocks) : Timelocks := { either x y with k := x.k && y.k && !mixed x y }

def andor (x y z : Timelocks) : Timelocks :=
  { either (either x y) z with k := x.k && y.k && z.k && !mixed x y }

/-- The loop of `thresh` over the children: the flags of a child are added before it is compared with
the flags collected so far. -/
def thresh (k : Nat) (xs : List Timelocks) : Timelocks := xs.foldl (fun out t =>
    let out := either out t
    { out with k := out.k && !(2 ≤ k && mixed t out) }) ⟨false, false, false, false, true⟩

end Timelocks

def constantInfo : ConstantToken → PolicyNodeExtInfo
  | .zero => { s := true, e := true, scriptSize := 1, ops := ⟨0, -1, 0⟩, ss := ⟨-1, 0⟩ }
  | .one => { f := true, scriptSize := 1, ops := ⟨0, 0, -1⟩, ss := ⟨0, -1⟩ }

def keyInfo (ctx : Context) : KeyToken → Option PolicyNodeExtInfo
  | .pkK => some { s := true, e := true, scriptSize := if ctx = .tapscript then 33 else 34
                   ops := ⟨0, 0, 0⟩, ss := ⟨1, 1⟩ }
  | .pkH => some { s := true, e := true, scriptSize := 3 + 21, ops := ⟨3, 0, 0⟩, ss := ⟨2, 2⟩ }
  | .pk => some { s := true, e := true, x := false, scriptSize := if ctx = .tapscript then 34 else 35
                  ops := ⟨1, 0, 0⟩, ss := ⟨1, 1⟩ }
  | .pkh => some { s := true, e := true, x := false, scriptSize := 3 + 21 + 1
                   ops := ⟨4, 0, 0⟩, ss := ⟨2, 2⟩ }
  | .wpkh => none

def multisigInfo (k n : Nat) : MultisigToken → Option PolicyNodeExtInfo
  | .multi => some {
      s := true, e := true, x := false
      scriptSize := UInt16.ofNat (1 + getPushScriptSize k + getPushScriptSize n + 34 * n)
      ops := ⟨1, Int16.ofNat n, Int16.ofNat n⟩
      ss := ⟨Int16.ofNat (k + 1), Int16.ofNat (k + 1)⟩ }
  | .multiA => some {
      s := true, e := true, x := false
      scriptSize := UInt16.ofNat (1 + getPushScriptSize k + 34 * n)
      ops := ⟨UInt16.ofNat (n + 1), 0, 0⟩
      ss := ⟨Int16.ofNat n, Int16.ofNat n⟩ }
  | .sortedmulti | .sortedmultiA => none

def sequenceLocktimeTypeFlag : UInt32 := 0x400000

def locktimeThreshold : UInt32 := 500000000

def uint32Info (n : UInt32) : Uint32Token → PolicyNodeExtInfo
  | .older => {
      f := true
      locks := ⟨n &&& sequenceLocktimeTypeFlag ≠ 0, n &&& sequenceLocktimeTypeFlag = 0, false, false, true⟩
      scriptSize := UInt16.ofNat (1 + getPushScriptSize n.toNat)
      ops := ⟨1, 0, -1⟩, ss := ⟨0, -1⟩ }
  | .after => {
      f := true
      locks := ⟨false, false, n ≥ locktimeThreshold, n < locktimeThreshold, true⟩
      scriptSize := UInt16.ofNat (1 + getPushScriptSize n.toNat)
      ops := ⟨1, 0, -1⟩, ss := ⟨0, -1⟩ }

def hashInfo : HashToken → PolicyNodeExtInfo
  | .sha256 | .hash256 => { x := false, scriptSize := 4 + 2 + 33, ops := ⟨4, 0, -1⟩, ss := ⟨1, -1⟩ }
  | .ripemd160 | .hash160 =>
    { x := false, scriptSize := 4 + 2 + 21, ops := ⟨4, 0, -1⟩, ss := ⟨1, -1⟩ }

def andorInfo (x y z : PolicyNodeExtInfo) : PolicyNodeExtInfo where
  s := z.s && (x.s || y.s)
  f := z.f && (x.s || y.f)
  e := z.e && (x.s || y.f)
  m := x.m && y.m && z.m && x.e && (x.s || y.s || z.s)
  locks := .andor x.locks y.locks z.locks
  scriptSize := 3 + x.scriptSize + y.scriptSize + z.scriptSize
  ops := ⟨3 + x.ops.count + y.ops.count + z.ops.count,
    maxcheck (sumcheck y.ops.sat x.ops.sat) (sumcheck y.ops.dsat z.ops.sat),
    sumcheck x.ops.dsat z.ops.dsat⟩
  ss := ⟨maxcheck (sumcheck x.ss.sat y.ss.sat) (sumcheck x.ss.dsat z.ss.sat), sumcheck x.ss.dsat z.ss.dsat⟩

def andVInfo (x y : PolicyNodeExtInfo) : PolicyNodeExtInfo where
  s := x.s || y.s
  f := x.s || y.f
  m := x.m && y.m
  locks := .both x.locks y.locks
  x := y.x
  scriptSize := x.scriptSize + y.scriptSize
  ops := ⟨x.ops.count + y.ops.count, sumcheck x.ops.sat y.ops.sat, -1⟩
  ss := ⟨sumcheck x.ss.sat y.ss.sat, -1⟩

def andBInfo (x y : PolicyNodeExtInfo) : PolicyNodeExtInfo where
  s := x.s || y.s
  f := x.f && y.f || x.s && x.f || y.s && y.f
  e := x.e && y.e && x.s && y.s
  m := x.m && y.m
  locks := .both x.locks y.locks
  scriptSize := 1 + x.scriptSize + y.scriptSize
  ops := ⟨1 + x.ops.count + y.ops.count, sumcheck x.ops.sat y.ops.sat, sumcheck x.ops.dsat y.ops.dsat⟩
  ss := ⟨sumcheck x.ss.sat y.ss.sat, sumcheck x.ss.dsat y.ss.dsat⟩

def andNInfo (x y : PolicyNodeExtInfo) : PolicyNodeExtInfo where
  s := x.s || y.s
  e := x.s || y.f
  m := x.m && y.m && x.e && (x.s || y.s)
  locks := .both x.locks y.locks
  scriptSize := 4 + x.scriptSize + y.scriptSize
  ops := ⟨3 + x.ops.count + y.ops.count, maxcheck (sumcheck y.ops.sat x.ops.sat) y.ops.dsat, x.ops.dsat⟩
  ss := ⟨sumcheck x.ss.sat y.ss.sat, x.ss.dsat⟩

def orBInfo (x z : PolicyNodeExtInfo) : PolicyNodeExtInfo where
  s := x.s && z.s
  e := true
  m := x.m && z.m && x.e && z.e && (x.s || z.s)
  locks := .either x.locks z.locks
  scriptSize := 1 + x.scriptSize + z.scriptSize
  ops := ⟨1 + x.ops.count + z.ops.count,
    maxcheck (sumcheck x.ops.sat z.ops.dsat) (sumcheck z.ops.sat x.ops.dsat),
    sumcheck x.ops.dsat z.ops.dsat⟩
  ss := ⟨maxcheck (sumcheck x.ss.dsat z.ss.sat) (sumcheck x.ss.sat z.ss.dsat), sumcheck x.ss.dsat z.ss.dsat⟩

def orCInfo (x z : PolicyNodeExtInfo) : PolicyNodeExtInfo where
  s := x.s && z.s
  f := true
  m := x.m && z.m && x.e && (x.s || z.s)
  locks := .either x.locks z.locks
  scriptSize := 2 + x.scriptSize + z.scriptSize
  ops := ⟨2 + x.ops.count + z.ops.count, maxcheck x.ops.sat (sumcheck z.ops.sat x.ops.dsat), -1⟩
  ss := ⟨maxcheck x.ss.sat (sumcheck x.ss.dsat z.ss.sat), -1⟩

def orDInfo (x z : PolicyNodeExtInfo) : PolicyNodeExtInfo where
  s := x.s && z.s
  f := z.f
  e := z.e
  m := x.m && z.m && x.e && (x.s || z.s)
  locks := .either x.locks z.locks
  scriptSize := 3 + x.scriptSize + z.scriptSize
  ops := ⟨3 + x.ops.count + z.ops.count, maxcheck x.ops.sat (sumcheck z.ops.sat x.ops.dsat),
    sumcheck x.ops.dsat z.ops.dsat⟩
  ss := ⟨maxcheck x.ss.sat (sumcheck x.ss.dsat z.ss.sat), sumcheck x.ss.dsat z.ss.dsat⟩

def orIInfo (x z : PolicyNodeExtInfo) : PolicyNodeExtInfo where
  s := x.s && z.s
  f := x.f && z.f
  e := x.e && z.f || z.e && x.f
  m := x.m && z.m && (x.s || z.s)
  locks := .either x.locks z.locks
  scriptSize := 3 + x.scriptSize + z.scriptSize
  ops := ⟨3 + x.ops.count + z.ops.count, maxcheck x.ops.sat z.ops.sat, maxcheck x.ops.dsat z.ops.dsat⟩
  ss := ⟨maxcheck (sumcheck x.ss.sat 1) (sumcheck z.ss.sat 1),
    maxcheck (sumcheck x.ss.dsat 1) (sumcheck z.ss.dsat 1)⟩

def script2Info : Script2Token → PolicyNodeExtInfo → PolicyNodeExtInfo → PolicyNodeExtInfo
  | .andV => andVInfo
  | .andB => andBInfo
  | .andN => andNInfo
  | .orB => orBInfo
  | .orC => orCInfo
  | .orD => orDInfo
  | .orI => orIInfo

def wrapperInfo (x : PolicyNodeExtInfo) : WrapperToken → PolicyNodeExtInfo
  | .a => { x with x := true, scriptSize := x.scriptSize + 2
                   ops := ⟨2 + x.ops.count, x.ops.sat, x.ops.dsat⟩ }
  | .s => { x with scriptSize := x.scriptSize + 1, ops := ⟨1 + x.ops.count, x.ops.sat, x.ops.dsat⟩ }
  | .n => { x with x := true, scriptSize := x.scriptSize + 1
                   ops := ⟨1 + x.ops.count, x.ops.sat, x.ops.dsat⟩ }
  | .c => { x with s := true, x := false, scriptSize := x.scriptSize + 1
                   ops := ⟨1 + x.ops.count, x.ops.sat, x.ops.dsat⟩ }
  | .d => { s := x.s, e := true, m := x.m, locks := x.locks, scriptSize := x.scriptSize + 3
            ops := ⟨3 + x.ops.count, x.ops.sat, 0⟩, ss := ⟨sumcheck 1 x.ss.sat, 1⟩ }
  | .t => { s := x.s, f := true, m := x.m, locks := x.locks, scriptSize := x.scriptSize + 1
            ops := ⟨x.ops.count, x.ops.sat, -1⟩, ss := ⟨x.ss.sat, -1⟩ }
  | .v => { s := x.s, f := true, m := x.m, locks := x.locks
            scriptSize := x.scriptSize + if x.x then 1 else 0
            ops := ⟨x.ops.count + if x.x then 1 else 0, x.ops.sat, -1⟩, ss := ⟨x.ss.sat, -1⟩ }
  | .j => { s := x.s, e := x.f, m := x.m, locks := x.locks, scriptSize := x.scriptSize + 4
            ops := ⟨4 + x.ops.count, x.ops.sat, 0⟩, ss := ⟨x.ss.sat, 1⟩ }
  | .l | .u => { s := x.s, e := x.f, m := x.m, locks := x.locks, scriptSize := x.scriptSize + 4
                 ops := ⟨3 + x.ops.count, x.ops.sat, x.ops.dsat⟩
                 ss := ⟨sumcheck x.ss.sat 1, maxcheck 1 (sumcheck x.ss.dsat 1)⟩ }

def maxNInThresh : Nat := 128

def nextSatsFrom (sat dsat : Int16) : Int16 → List Int16 → List Int16
  | last, [] => [sumcheck last sat]
  | prev, cur :: sats =>
    maxcheck (sumcheck cur dsat) (sumcheck prev sat) :: nextSatsFrom sat dsat cur sats

/-- One round of the loops of `compute_thresh_ops` and `compute_thresh_stacksize`: entry `j` is for
`j` satisfied children. -/
def nextSats (sat dsat : Int16) : List Int16 → List Int16
  | [] => []
  | first :: sats => sumcheck first dsat :: nextSatsFrom sat dsat first sats

/-- The table after all children, from the pairs of their values to satisfy and to dissatisfy. -/
def threshSats (children : List (Int16 × Int16)) : List Int16 :=
  children.foldl (fun sats t => nextSats t.1 t.2 sats) [0]

variable (overread : Nat → Int16)

/-- Reading the table, which starts an array of `MAX_N_IN_THRESH + 2` zeros; a threshold that is not
checked may lead past its end. -/
def readSats (sats : List Int16) (k : Nat) : Int16 :=
  if k < maxNInThresh + 2 then sats.getD k 0 else overread k

def threshInfo (k : Nat) (xs : List PolicyNodeExtInfo) : Option PolicyNodeExtInfo :=
  let countNotS := xs.length - xs.countP (·.s)
  let opsSats := threshSats (xs.map fun t => (t.ops.sat, t.ops.dsat))
  let ssSats := threshSats (xs.map fun t => (t.ss.sat, t.ss.dsat))
  if xs.length > maxNInThresh then none
  else some {
    s := countNotS + 1 ≤ k
    e := xs.countP (·.s) = xs.length
    m := xs.countP (·.e) = xs.length && countNotS ≤ k
    locks := .thresh k (xs.map (·.locks))
    x := false
    scriptSize := UInt16.ofNat
      (xs.foldl (fun size t => size + t.scriptSize.toNat) 0 + xs.length + getPushScriptSize k)
    ops := ⟨xs.foldl (fun count t => count + (t.ops.count + 1)) 0, readSats overread opsSats k,
      opsSats.getD 0 0⟩
    ss := ⟨readSats overread ssSats k, ssSats.getD 0 0⟩ }

variable (ctx : Context)

mutual

def computeMiniscriptPolicyExtInfo (node : PolicyNode) : Option PolicyNodeExtInfo :=
  if node.isMiniscript then
    match node with
    | .sh _ | .wsh _ | .tr _ _ => none
    | .constant _ token => some (constantInfo token)
    | .withHash _ token _ => some (hashInfo token)
    | .withKey _ token _ => keyInfo ctx token
    | .withUint32 _ token n => some (uint32Info n token)
    | .multisig _ token k keys => multisigInfo k keys.length token
    | .andor _ x y z => do
      let x ← computeMiniscriptPolicyExtInfo x
      let y ← computeMiniscriptPolicyExtInfo y
      let z ← computeMiniscriptPolicyExtInfo z
      return andorInfo x y z
    | .withScript2 _ token x y => do
      let x ← computeMiniscriptPolicyExtInfo x
      let y ← computeMiniscriptPolicyExtInfo y
      return script2Info token x y
    | .thresh _ k scripts => do
      let xs ← computeExtInfos scripts
      threshInfo overread k xs
    | .wrapper _ token x => do
      let x ← computeMiniscriptPolicyExtInfo x
      return wrapperInfo x token
  else none

def computeExtInfos : List PolicyNode → Option (List PolicyNodeExtInfo)
  | [] => some []
  | x :: xs => do
    let x ← computeMiniscriptPolicyExtInfo x
    let xs ← computeExtInfos xs
    return x :: xs

end

def maxStandardP2wshStackItems : Nat := 100

def maxStandardP2wshScriptSize : Nat := 3600

def maxOpsPerScript : Nat := 201

def toUint32 (n : Int16) : Nat := (n.toInt % 2 ^ 32).toNat

def extInfoSane (info : PolicyNodeExtInfo) : Bool := info.m && info.s && info.locks.k
    && info.ss.sat ≠ -1 && toUint32 info.ss.sat ≤ maxStandardP2wshStackItems
    && info.ops.sat ≠ -1
    && (info.ops.count.toNat + toUint32 info.ops.sat) % 2 ^ 32 ≤ maxOpsPerScript
    && info.scriptSize.toNat ≤ maxStandardP2wshScriptSize

def isMiniscriptSane (script : PolicyNode) : Bool :=
  match script.flags, computeMiniscriptPolicyExtInfo overread ctx script with
  | some flags, some info => flags.base = .B && extInfoSane info
  | _, _ => false

end LedgerBabylon
