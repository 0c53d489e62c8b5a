import LedgerBabylon.Common.KeyInfoScanner
import LedgerBabylon.Common.Buffer
import Mathlib.Data.List.Forall2
import Mathlib.Data.Nat.Bitwise

/-!
# Derivation paths as bytes and as text

A path is read from a buffer as big-endian numbers, and printed for the screen. The reader compares the
start of each number with the end of the input, so that the last number may stand partly behind it. The
printer asks `strlen` how much was written, which is what fitted, so that it does not notice when the
last piece is cut.
-/

namespace LedgerBabylon

open List Endian Exec

variable {m m0 : Memory} {addr n k d inLen outLen : Nat} {b : Buffer} {out : Bytes}
  {pieces : List Bytes} {step : WrittenStep}

/-- The offsets that are read, from this one on, and the numbers. A number is read if it does not start
behind the end of the input. -/
def bip32PathReadLoop (m : Memory) (addr inLen : Nat) : Nat → Nat → List Nat × Option (List UInt32)
  | 0, _ => ([], some [])
  | n + 1, offset =>
    if inLen < offset then ([], none)
    else
      let rest := bip32PathReadLoop m addr inLen n (offset + 4)
      (offset :: rest.1, rest.2.map (UInt32.ofNat (beNat (m.read (addr + offset) 4)) :: ·))

def bip32PathRead (m : Memory) (addr inLen outLen : Nat) : List Nat × Option (List UInt32) :=
  if maxBip32PathSteps < outLen then ([], none) else bip32PathReadLoop m addr inLen outLen 0

/-- `buffer_read_bip32_path`: the path, if it was read, and the buffer afterwards, whose position may be
beyond the end. -/
def Buffer.readBip32Path (outLen : Nat) (m : Memory) (b : Buffer) : Option (List UInt32) × Buffer :=
  match (bip32PathRead m b.cur (b.size - b.offset) outLen).2 with
  | none => (none, b)
  | some path => (some path, (b.seekCur (4 * outLen)).getD b)

def pathAt (m : Memory) (addr n : Nat) : List UInt32 :=
  (range n).map fun i => UInt32.ofNat (beNat (m.read (addr + 4 * i) 4))

theorem bip32PathReadLoop_eq (m : Memory) (addr inLen n offset : Nat) :
    (bip32PathReadLoop m addr inLen n offset).2 =
      if n = 0 ∨ offset + 4 * n ≤ inLen + 4 then some (pathAt m (addr + offset) n) else none := by
  induction n generalizing offset with
  | zero => rfl
  | succ n ih =>
    rw [bip32PathReadLoop]
    by_cases hbehind : inLen < offset
    · rw [if_pos hbehind, if_neg (by omega)]
    · rw [if_neg hbehind]
      dsimp only
      rw [ih]
      by_cases hrest : n = 0 ∨ offset + 4 + 4 * n ≤ inLen + 4
      · have hpath : pathAt m (addr + offset) (n + 1) =
            UInt32.ofNat (beNat (m.read (addr + offset) 4)) :: pathAt m (addr + (offset + 4)) n := by
          simp only [pathAt, range_succ_eq_map, map_cons, map_map]
          congr 1
          apply map_congr_left
          intro i _
          show UInt32.ofNat (beNat (m.read (addr + offset + 4 * (i + 1)) 4)) = _
          rw [show addr + offset + 4 * (i + 1) = addr + (offset + 4) + 4 * i by omega]
        rw [if_pos hrest, if_pos (by omega), hpath]
        rfl
      · rw [if_neg hrest, if_neg (by omega)]
        rfl

theorem mem_bip32PathReadLoop_iff {offset a : Nat} :
    a ∈ (bip32PathReadLoop m addr inLen n offset).1 ↔ ∃ i < n, a = offset + 4 * i ∧ a ≤ inLen := by
  induction n generalizing offset with
  | zero => simp [bip32PathReadLoop]
  | succ n ih =>
    rw [bip32PathReadLoop]
    split_ifs with hbehind
    · simp only [not_mem_nil, false_iff, not_exists, not_and]
      intro i _ ha
      omega
    · simp only [mem_cons, ih]
      constructor
      · rintro (rfl | ⟨i, hi, ha, hle⟩)
        · exact ⟨0, by omega, by omega, by omega⟩
        · exact ⟨i + 1, by omega, by omega, hle⟩
      · rintro ⟨i, hi, ha, hle⟩
        rcases Nat.eq_zero_or_pos i with rfl | hpos
        · exact .inl ha
        · exact .inr ⟨i - 1, by omega, by omega, hle⟩

structure ReadsPathWithin (m : Memory) (b : Buffer) (n : Nat) : Prop where
  short : b.size - b.offset < 4 * n → (b.readBip32Path n m).1 = none
  failure : (b.readBip32Path n m).1 = none → (b.readBip32Path n m).2.offset = b.offset
  path_eq : ∀ path, (b.readBip32Path n m).1 = some path → path = pathAt m b.cur n
  advances : ∀ path, (b.readBip32Path n m).1 = some path → (b.readBip32Path n m).2.offset = b.offset + 4 * n
  inside : ∀ path, (b.readBip32Path n m).1 = some path →
    ∀ offset ∈ (bip32PathRead m b.cur (b.size - b.offset) n).1, b.offset + offset + 4 ≤ b.size

theorem bip32PathRead_of_le (m : Memory) (addr inLen : Nat) (hn : n ≤ maxBip32PathSteps) :
    (bip32PathRead m addr inLen n).2 = (if n = 0 ∨ 4 * n ≤ inLen + 4 then some (pathAt m addr n) else none)
      ∧ ∀ a, a ∈ (bip32PathRead m addr inLen n).1 ↔ ∃ i < n, a = 4 * i ∧ a ≤ inLen := by
  have hread : bip32PathRead m addr inLen n = bip32PathReadLoop m addr inLen n 0 := if_neg (Nat.not_lt.mpr hn)
  rw [hread, bip32PathReadLoop_eq]
  refine ⟨by simp only [Nat.zero_add, Nat.add_zero], fun a => ?_⟩
  rw [mem_bip32PathReadLoop_iff]
  simp only [Nat.zero_add]

theorem bip32PathRead_of_lt (hn : maxBip32PathSteps < n) : bip32PathRead m addr inLen n = ([], none) :=
  if_pos hn

theorem readsInside_iff :
    (∀ offset ∈ (bip32PathRead m b.cur (b.size - b.offset) n).1, b.offset + offset + 4 ≤ b.size)
      ↔ maxBip32PathSteps < n ∨ 4 * n ≤ b.size - b.offset := by
  have hoffset := b.offset_le
  rcases Nat.lt_or_ge maxBip32PathSteps n with hlong | hn
  · rw [bip32PathRead_of_lt hlong]
    exact iff_of_true (by simp) (.inl hlong)
  · obtain ⟨-, hmem⟩ := bip32PathRead_of_le m b.cur (b.size - b.offset) hn
    simp only [hmem]
    constructor
    · intro h
      right
      by_contra hleft
      -- the number in which the buffer ends, or which starts at its end, is looked at
      have hlast := h (4 * ((b.size - b.offset) / 4)) ⟨(b.size - b.offset) / 4, by omega, rfl, by omega⟩
      omega
    · rintro (hlong | hleft) offset ⟨i, hi, rfl, hle⟩ <;> omega

theorem readBip32Path_of_left (hn : n ≤ maxBip32PathSteps) (hleft : 4 * n ≤ b.size - b.offset) :
    ∃ b', b.readBip32Path n m = (some (pathAt m b.cur n), b') ∧ b'.offset = b.offset + 4 * n := by
  have hoffset := b.offset_le
  obtain ⟨hpath, -⟩ := bip32PathRead_of_le m b.cur (b.size - b.offset) hn
  rw [if_pos (.inr (by omega))] at hpath
  have hseek : b.seekCur (4 * n) = some ⟨b.ptr, b.size, b.offset + 4 * n, by omega⟩ := dif_pos (by omega)
  refine ⟨⟨b.ptr, b.size, b.offset + 4 * n, by omega⟩, ?_, rfl⟩
  simp only [Buffer.readBip32Path, hpath, hseek, Option.getD_some]

theorem readBip32Path_eq_none_iff :
    (b.readBip32Path n m).1 = none ↔ maxBip32PathSteps < n ∨ b.size - b.offset + 4 < 4 * n := by
  rcases Nat.lt_or_ge maxBip32PathSteps n with hlong | hn
  · simp only [Buffer.readBip32Path, bip32PathRead_of_lt hlong]
    exact iff_of_true trivial (.inl hlong)
  · obtain ⟨hpath, -⟩ := bip32PathRead_of_le m b.cur (b.size - b.offset) hn
    simp only [Buffer.readBip32Path, hpath]
    split_ifs with hread
    · exact iff_of_false (by simp) (by omega)
    · exact iff_of_true rfl (by omega)

theorem readBip32Path_of_none (h : (b.readBip32Path n m).1 = none) : (b.readBip32Path n m).2 = b := by
  simp only [Buffer.readBip32Path] at h ⊢
  split at h
  · rfl
  · simp at h

/-- **Reading a path.** The path is read from the unread bytes, or not at all, exactly if it is too
long, or all its bytes are left, or not even the start of its last number is. Every number that is looked
at is inside the buffer only in the first two cases. -/
theorem readBip32Path_within_iff (m : Memory) (b : Buffer) (n : Nat) :
    (ReadsPathWithin m b n ↔ maxBip32PathSteps < n ∨ 4 * n ≤ b.size - b.offset
        ∨ b.size - b.offset + 4 < 4 * n)
      ∧ ((∀ offset ∈ (bip32PathRead m b.cur (b.size - b.offset) n).1,
          b.offset + offset + 4 ≤ b.size) ↔ maxBip32PathSteps < n ∨ 4 * n ≤ b.size - b.offset) := by
  refine ⟨⟨fun h => ?_, fun h => ?_⟩, readsInside_iff⟩
  · rcases Nat.lt_or_ge (b.size - b.offset) (4 * n) with hshort | hleft
    · exact (readBip32Path_eq_none_iff.mp (h.short hshort)).imp_right .inr
    · exact .inr (.inl hleft)
  · by_cases hnone : (b.readBip32Path n m).1 = none
    · constructor
      · exact fun _ => hnone
      · exact fun _ => by rw [readBip32Path_of_none hnone]
      all_goals
        intro path hpath
        rw [hnone] at hpath
        cases hpath
    · rw [readBip32Path_eq_none_iff, not_or] at hnone
      have hleft : 4 * n ≤ b.size - b.offset := by omega
      obtain ⟨b', hread, hadvanced⟩ := readBip32Path_of_left (m := m) (by omega) hleft
      constructor
      · exact fun hshort => absurd hshort (Nat.not_lt.mpr hleft)
      · exact fun hnone => by simp [hread] at hnone
      · intro path hpath
        rw [hread] at hpath
        exact (Option.some.inj hpath).symm
      · exact fun _ _ => by rw [hread, hadvanced]
      · exact fun _ _ => readsInside_iff.mpr (.inr hleft)

/-- With three bytes left, one number is read from four, and the position stays where it is. -/
theorem not_readsPathWithin : ¬ ∀ (m : Memory) (b : Buffer) (n : Nat), ReadsPathWithin m b n := by
  intro h
  have hshort := (h (Memory.ofList [1, 2, 3, 4]) (Buffer.create 0 3) 1).short (by decide)
  exact absurd hshort (by decide)

def decimalText (n : Nat) : Bytes := (Nat.toDigits 10 n).map fun c => UInt8.ofNat c.toNat

def pathPieces : List UInt32 → List Bytes
  | [] => []
  | step :: rest =>
    decimalText (step &&& 0x7FFFFFFF).toNat ::
      ((if step &&& bip32FirstHardenedChild ≠ 0 then [[0x27]] else []) ++
        (if rest ≠ [] then [[0x2F]] else []) ++ pathPieces rest)

def snprintf (m : Memory) (addr size : Nat) (text : Bytes) : Memory :=
  if size = 0 then m else m.write addr (text.take (size - 1) ++ [0])

def strlen (m : Memory) (addr size : Nat) : Nat := ((m.read addr size).takeWhile (· ≠ 0)).length

def printPieces (addr outLen : Nat) : List Bytes → Memory → Nat → Bool × Memory
  | [], m, _ => (true, m)
  | piece :: pieces, m, offset =>
    let m := snprintf m (addr + offset) (outLen - offset) piece
    let written := strlen m (addr + offset) (outLen - offset)
    if written = 0 ∨ outLen - offset ≤ written then
      (false, m.write addr (replicate outLen 0))
    else printPieces addr outLen pieces m (offset + written)

def bip32PathFormat (path : List UInt32) (m : Memory) (addr outLen : Nat) : Bool × Memory :=
  if maxBip32PathSteps < path.length ∨ outLen < 1 then (false, m)
  else
    let m := if path.length = 0 then m.write addr [0] else m
    printPieces addr outLen (pathPieces path) m 0

def maxSerializedBip32PathLength : Nat := 12 * maxBip32PathSteps

theorem digitChar_byte (hd : d < 10) : UInt8.ofNat (Nat.digitChar d).toNat = UInt8.ofNat (48 + d) := by
  have hall : ∀ d : Fin 10, UInt8.ofNat (Nat.digitChar d).toNat = UInt8.ofNat (48 + d) := by decide
  exact hall ⟨d, hd⟩

theorem decimalText_of_le (hn : 10 ≤ n) :
    decimalText n = decimalText (n / 10) ++ [UInt8.ofNat (48 + n % 10)] := by
  rw [decimalText, Nat.toDigits_of_base_le (by decide) hn, map_append, map_singleton,
    digitChar_byte (Nat.mod_lt _ (by decide))]
  rfl

theorem decimalText_of_lt (hn : n < 10) : decimalText n = [UInt8.ofNat (48 + n)] := by
  rw [decimalText, Nat.toDigits_of_lt_base hn, map_singleton, digitChar_byte hn]

theorem isDigit_digit (hd : d < 10) :
    isDigit (UInt8.ofNat (48 + d)) ∧ digitValue (UInt8.ofNat (48 + d)) = d := by
  have hall : ∀ d : Fin 10, isDigit (UInt8.ofNat (48 + d))
      ∧ digitValue (UInt8.ofNat (48 + d)) = d := by decide
  exact hall ⟨d, hd⟩

theorem isDecimal_decimalText (n : Nat) : IsDecimal (decimalText n) ∧ decimalValue (decimalText n) = n
      ∧ ((decimalText n).head? = some 0x30 → n = 0) := by
  induction n using Nat.strongRecOn with
  | ind n ih =>
    rcases Nat.lt_or_ge n 10 with hn | hn
    · obtain ⟨hdigit, hvalue⟩ := isDigit_digit hn
      rw [decimalText_of_lt hn]
      refine ⟨⟨by simp, by simpa using hdigit, fun _ => rfl⟩, ?_, ?_⟩
      · rw [decimalValue, map_singleton, hvalue]
        simp [Decimal.value]
      · intro hhead
        rw [← hvalue, digitValue_eq_zero_iff]
        exact Option.some.inj hhead
    · obtain ⟨hdecimal, hvalue, hzero⟩ := ih (n / 10) (by omega)
      obtain ⟨hdigit, hlast⟩ := isDigit_digit (Nat.mod_lt n (show 0 < 10 by decide))
      have hhead : (decimalText n).head? ≠ some 0x30 := by
        rw [decimalText_of_le hn, head?_append_of_ne_nil _ hdecimal.ne_nil]
        intro hhead
        have := hzero hhead
        omega
      refine ⟨⟨?_, ?_, fun h => absurd h hhead⟩, ?_, fun h => absurd h hhead⟩
      · rw [decimalText_of_le hn]
        simp
      · intro c hc
        rw [decimalText_of_le hn, mem_append, mem_singleton] at hc
        rcases hc with hc | rfl
        · exact hdecimal.all c hc
        · exact hdigit
      · rw [decimalText_of_le hn, decimalValue_concat, hvalue, hlast]
        omega

theorem length_decimalText_le (hk : 1 ≤ k) (hn : n < 10 ^ k) : (decimalText n).length ≤ k := by
  induction k generalizing n with
  | zero => omega
  | succ k ih =>
    rcases Nat.lt_or_ge n 10 with hsmall | hlarge
    · rw [decimalText_of_lt hsmall]
      simp
    · rw [pow_succ] at hn
      have hk : 1 ≤ k := by
        by_contra hzero
        obtain rfl : k = 0 := by omega
        omega
      rw [decimalText_of_le hlarge, length_append, length_singleton]
      have := ih hk (n := n / 10) (by omega)
      omega

def printedText (outLen : Nat) : List Bytes → Bytes → Option Bytes
  | [], out => some out
  | piece :: pieces, out =>
    let written := piece.take (outLen - out.length - 1)
    if written = [] then none else printedText outLen pieces (out ++ written)

theorem strlen_snprintf {size : Nat} {text : Bytes} (hsize : 1 ≤ size)
    (htext : 0 ∉ text) : strlen (snprintf m addr size text) addr size = (text.take (size - 1)).length := by
  have hlength : (text.take (size - 1)).length ≤ size - 1 := length_take_le _ _
  obtain ⟨k, hk⟩ := Nat.exists_eq_add_of_le (show (text.take (size - 1) ++ [0]).length ≤ size by
    rw [length_append, length_singleton]
    omega)
  have hread (written : Bytes) : (m.write addr (written ++ [0])).read addr ((written ++ [0]).length + k) =
        written ++ 0 :: (m.write addr (written ++ [0])).read (addr + (written ++ [0]).length) k := by
    rw [Memory.read_add, Memory.read_write_same _ rfl]
    simp
  have hread := hread (text.take (size - 1))
  rw [← hk] at hread
  have hall : ∀ c ∈ text.take (size - 1), decide (c ≠ 0) := by
    intro c hc
    rw [decide_eq_true_eq]
    rintro rfl
    exact htext (mem_of_mem_take hc)
  rw [strlen, snprintf, if_neg (by omega), hread, takeWhile_append_of_pos hall]
  simp

structure Printed (m0 : Memory) (addr outLen : Nat) (text : Bytes) (m : Memory) : Prop where
  read : m.read addr text.length = text
  room : text.length < outLen
  outside : ∀ i, i < addr ∨ addr + outLen ≤ i → m i = m0 i

theorem Printed.snprintf (h : Printed m0 addr outLen out m) (piece : Bytes) :
    Printed m0 addr outLen (out ++ piece.take (outLen - out.length - 1))
        (LedgerBabylon.snprintf m (addr + out.length) (outLen - out.length) piece)
      ∧ LedgerBabylon.snprintf m (addr + out.length) (outLen - out.length) piece
        (addr + (out ++ piece.take (outLen - out.length - 1)).length) = 0 := by
  have hroom := h.room
  have htake : (piece.take (outLen - out.length - 1)).length ≤ outLen - out.length - 1 := length_take_le _ _
  rw [LedgerBabylon.snprintf, if_neg (by omega), length_append]
  refine ⟨⟨?_, ?_, ?_⟩, ?_⟩
  · rw [length_append, Memory.read_add, Memory.read_write_outside _ (.inl le_rfl), h.read,
      Memory.read_write_inside _ le_rfl (by rw [length_append]; omega), Nat.sub_self,
      drop_zero, take_left]
  · rw [length_append]
    omega
  · intro i hi
    rw [← h.outside i hi]
    rcases hi with hi | hi
    · exact Memory.write_apply_lt _ (by omega)
    · apply Memory.write_apply_ge
      rw [length_append, length_singleton]
      omega
  · rw [Memory.write_apply_inside _ (by omega) (by rw [length_append, length_singleton]; omega)]
    rw [show addr + (out.length + (piece.take (outLen - out.length - 1)).length) - (addr + out.length)
      = (piece.take (outLen - out.length - 1)).length by omega]
    simp

/-- The printer on memory prints the text, or fails and leaves an empty one. -/
theorem printPieces_eq (hpieces : ∀ piece ∈ pieces, 0 ∉ piece) (h : Printed m0 addr outLen out m) :
    (printPieces addr outLen pieces m out.length).1 = (printedText outLen pieces out).isSome
      ∧ (∀ i, i < addr ∨ addr + outLen ≤ i → (printPieces addr outLen pieces m out.length).2 i = m0 i)
      ∧ ∀ text, printedText outLen pieces out = some text →
        Printed m0 addr outLen text (printPieces addr outLen pieces m out.length).2
          ∧ (pieces ≠ [] → (printPieces addr outLen pieces m out.length).2 (addr + text.length) = 0) := by
  induction pieces generalizing m out with
  | nil =>
    refine ⟨rfl, h.outside, fun text htext => ?_⟩
    cases htext
    exact ⟨h, fun hne => absurd rfl hne⟩
  | cons piece pieces ih =>
    obtain ⟨hpiece, hpieces⟩ := forall_mem_cons.mp hpieces
    have hroom := h.room
    obtain ⟨hprinted, hzero⟩ := h.snprintf piece
    have hlength := hprinted.room
    rw [length_append] at hlength
    rw [printPieces, printedText]
    rw [strlen_snprintf (by omega) hpiece]
    by_cases hnone : piece.take (outLen - out.length - 1) = []
    · rw [if_pos (.inl (by rw [hnone]; rfl)), if_pos hnone]
      refine ⟨rfl, fun i hi => ?_, fun text htext => by cases htext⟩
      rw [← hprinted.outside i hi]
      rcases hi with hi | hi
      · exact Memory.write_apply_lt _ hi
      · exact Memory.write_apply_ge _ (by rw [length_replicate]; exact hi)
    · have hpos : (piece.take (outLen - out.length - 1)).length ≠ 0 := fun hzero =>
        hnone (length_eq_zero_iff.mp hzero)
      rw [if_neg (by omega), if_neg hnone, ← length_append]
      obtain ⟨hsome, houtside, hrest⟩ := ih hpieces hprinted
      refine ⟨hsome, houtside, fun text htext => ?_⟩
      obtain ⟨hfinal, hend⟩ := hrest text htext
      refine ⟨hfinal, fun _ => ?_⟩
      by_cases hlast : pieces = []
      · subst hlast
        cases htext
        exact hzero
      · exact hend hlast

/-- All pieces but the last are printed in full, or nothing of the last one is. -/
theorem printedText_concat {last : Bytes}
    (hpieces : ∀ piece ∈ pieces, piece ≠ []) (hlast : last ≠ []) (hroom : out.length < outLen) :
    printedText outLen (pieces ++ [last]) out =
      if (out ++ pieces.flatten).length + 1 < outLen then
        some (out ++ pieces.flatten ++ last.take (outLen - (out ++ pieces.flatten).length - 1))
      else none := by
  induction pieces generalizing out with
  | nil =>
    rw [flatten_nil, append_nil, nil_append, printedText]
    by_cases hfits : out.length + 1 < outLen
    · have hne : last.take (outLen - out.length - 1) ≠ [] := by
        rw [ne_eq, take_eq_nil_iff]
        rintro (hzero | hnil)
        · omega
        · exact hlast hnil
      rw [if_neg hne, if_pos hfits]
      rfl
    · have hnil : last.take (outLen - out.length - 1) = [] := by
        rw [show outLen - out.length - 1 = 0 by omega, take_zero]
      rw [if_pos hnil, if_neg hfits]
  | cons piece pieces ih =>
    obtain ⟨hpiece, hpieces⟩ := forall_mem_cons.mp hpieces
    rw [cons_append, printedText, flatten_cons]
    by_cases hfits : piece.length ≤ outLen - out.length - 1
    · have hpos := length_pos_iff.mpr hpiece
      rw [take_of_length_le hfits, if_neg hpiece, ih hpieces (by rw [length_append]; omega), append_assoc]
    · have hlong : ¬ (out ++ (piece ++ pieces.flatten)).length + 1 < outLen := by
        rw [length_append, length_append]
        omega
      rw [if_neg hlong]
      -- a piece that is cut leaves no room for the next one
      by_cases hnil : piece.take (outLen - out.length - 1) = []
      · rw [if_pos hnil]
      · have hcut : (out ++ piece.take (outLen - out.length - 1)).length = outLen - 1 := by
          rw [length_append, length_take]
          omega
        rw [if_neg hnil, ih hpieces (by omega), if_neg (by rw [length_append]; omega)]

def printedStep (step : UInt32) : WrittenStep where
  digits := decimalText (step &&& 0x7FFFFFFF).toNat
  hardened := step &&& bip32FirstHardenedChild ≠ 0

def pathText (path : List UInt32) : Bytes := [0x2F].intercalate (path.map fun step => (printedStep step).body)

theorem intercalate_concat {α : Type} (x : α) (parts : List (List α)) (last : List α) :
    [x].intercalate (parts ++ [last]) = parts.flatMap (· ++ [x]) ++ last := by
  induction parts with
  | nil => simp
  | cons part parts ih =>
    rw [cons_append, intercalate_cons_of_ne_nil (by simp), ih]
    simp

theorem toNat_and_low (step : UInt32) : (step &&& 0x7FFFFFFF).toNat = step.toNat % 2 ^ 31 := by
  rw [UInt32.toNat_and]
  exact Nat.and_two_pow_sub_one_eq_mod step.toNat 31

theorem and_hardened_ne_zero_iff (step : UInt32) :
    step &&& bip32FirstHardenedChild ≠ 0 ↔ 2 ^ 31 ≤ step.toNat := by
  have hlt := step.toNat_lt
  have hand : (step &&& bip32FirstHardenedChild).toNat = (step.toNat.testBit 31).toNat * 2 ^ 31 := by
    rw [UInt32.toNat_and]
    exact Nat.and_two_pow step.toNat 31
  rw [ne_eq, ← UInt32.toNat_inj, hand, UInt32.toNat_zero, Nat.testBit_eq_decide_div_mod_eq]
  by_cases hbit : step.toNat / 2 ^ 31 % 2 = 1
  · simp only [hbit, decide_true, Bool.toNat_true]
    omega
  · simp only [hbit, decide_false, Bool.toNat_false]
    omega

theorem printedStep_number (step : UInt32) : (printedStep step).number = step := by
  have hlt := step.toNat_lt
  have hvalue : decimalValue (printedStep step).digits = step.toNat % 2 ^ 31 := by
    rw [printedStep, (isDecimal_decimalText _).2.1, toNat_and_low]
  rw [WrittenStep.number, hvalue, ← UInt32.toNat_inj]
  by_cases hhardened : step &&& bip32FirstHardenedChild ≠ 0
  · have hle := (and_hardened_ne_zero_iff step).mp hhardened
    rw [if_pos (by simpa [printedStep] using hhardened), UInt32.toNat_or, UInt32.toNat_ofNat']
    have hor : step.toNat % 2 ^ 31 % 2 ^ 32 ||| 2 ^ 31 = 2 ^ 31 * 1 + step.toNat % 2 ^ 31 % 2 ^ 32 := by
      rw [Nat.two_pow_add_eq_or_of_lt (by omega), Nat.mul_one, Nat.or_comm]
    exact hor.trans (by omega)
  · have hnot := mt (and_hardened_ne_zero_iff step).mpr hhardened
    rw [if_neg (by simpa [printedStep] using hhardened), UInt32.toNat_ofNat']
    omega

theorem printedStep_exact (step : UInt32) : (printedStep step).Exact := by
  obtain ⟨hdecimal, hvalue, -⟩ := isDecimal_decimalText (step &&& 0x7FFFFFFF).toNat
  refine ⟨hdecimal, ?_⟩
  rw [printedStep, hvalue, toNat_and_low]
  exact Nat.mod_lt _ (by decide)

theorem decimalValue_append (ds es : Bytes) :
    decimalValue (ds ++ es) = decimalValue ds * 10 ^ es.length + decimalValue es := by
  rw [decimalValue, map_append, Decimal.value_append, length_map]
  rfl

theorem decimalValue_take_le (digits : Bytes) (k : Nat) :
    decimalValue (digits.take k) ≤ decimalValue digits := by
  conv_rhs => rw [← take_append_drop k digits, decimalValue_append]
  exact Nat.le_add_right_of_le (Nat.le_mul_of_pos_right _ (Nat.pow_pos (by decide)))

theorem decimalValue_take_lt {digits : Bytes} (h : IsDecimal digits) (hk : 1 ≤ k)
    (hlt : k < digits.length) : decimalValue (digits.take k) < decimalValue digits := by
  obtain ⟨c, rest, rfl⟩ := exists_cons_of_ne_nil h.ne_nil
  have hfirst : 1 ≤ digitValue c := by
    by_contra hzero
    have hc : c = 0x30 := digitValue_eq_zero_iff.mp (by omega)
    have hone := h.head (by rw [hc]; rfl)
    omega
  have hpos : 1 ≤ decimalValue ((c :: rest).take k) := calc
    1 ≤ digitValue c := hfirst
    _ = decimalValue ([c]) := by simp [decimalValue, Decimal.value]
    _ = decimalValue (((c :: rest).take k).take 1) := by
        rw [take_take, Nat.min_eq_left hk]
        rfl
    _ ≤ decimalValue ((c :: rest).take k) := decimalValue_take_le _ 1
  have hten : 10 ≤ 10 ^ ((c :: rest).drop k).length := by
    rw [length_drop]
    exact Nat.le_self_pow (by omega) 10
  have hmul := Nat.mul_le_mul_left (decimalValue ((c :: rest).take k)) hten
  conv_rhs => rw [← take_append_drop k (c :: rest), decimalValue_append]
  omega

theorem WrittenStep.Exact.readable (h : step.Exact) : step.Readable := by
  have hlt := h.lt
  refine ⟨h.decimal, ?_, Nat.lt_of_le_of_lt (Nat.mod_le _ _) hlt⟩
  rintro ⟨i, -, hless⟩
  have hle := decimalValue_take_le step.digits (i + 1)
  have hmono := decimalValue_take_le (step.digits.take (i + 1)) i
  rw [take_take, Nat.min_eq_left (Nat.le_succ i)] at hmono
  rw [Nat.mod_eq_of_lt (by omega), Nat.mod_eq_of_lt (by omega)] at hless
  omega

def ReadsStep (part : Bytes) (step : UInt32) : Prop :=
  ∀ s : KeyInfoState, KeyInfo.bufferReadDerivationStep { s with input := part } =
    .ok step { s with input := [] }

def ReadsBack (text : Bytes) (path : List UInt32) : Prop := List.Forall₂ ReadsStep (text.splitOn 0x2F) path

theorem readsStep_body (h : step.Readable) : ReadsStep step.body step.number := by
  intro s
  rw [KeyInfo.bufferReadDerivationStep_ok_iff]
  exact ⟨step, h, (append_nil _).symm, fun _ => ⟨fun c hc => (by cases hc), by simp⟩, rfl, rfl⟩

theorem ReadsStep.of_digits {digits : Bytes} {number : UInt32}
    (hall : ∀ c ∈ digits, isDigit c) (h : ReadsStep digits number) :
    number = UInt32.ofNat (decimalValue digits) := by
  obtain ⟨step, -, hbody, -, rfl, -⟩ := KeyInfo.bufferReadDerivationStep_ok_iff.mp (h ⟨[], .zero, 0⟩)
  dsimp only at hbody
  rw [append_nil] at hbody
  have hplain : step.hardened = false := by
    by_contra hhardened
    rw [Bool.not_eq_false] at hhardened
    have hmark := hall 0x27 (by rw [hbody, WrittenStep.body, hhardened]; simp)
    exact absurd hmark (by decide)
  have hdigits : digits = step.digits := by
    rw [hbody, WrittenStep.body, hplain]
    exact append_nil _
  rw [WrittenStep.number, hplain, hdigits]
  rfl

theorem slash_not_mem_digits {digits : Bytes} (hall : ∀ c ∈ digits, isDigit c) :
    0x2F ∉ digits := fun hslash => absurd (hall 0x2F hslash) (by decide)

theorem slash_not_mem_body (step : UInt32) : 0x2F ∉ (printedStep step).body := by
  rw [WrittenStep.body, mem_append, not_or]
  refine ⟨slash_not_mem_digits (printedStep_exact step).decimal.all, ?_⟩
  split_ifs <;> decide

variable {path : List UInt32}

theorem readsBack_pathText (hne : path ≠ []) : ReadsBack (pathText path) path := by
  have hparts : (pathText path).splitOn 0x2F = path.map fun step => (printedStep step).body := by
    apply splitOn_intercalate
    · intro part hpart
      obtain ⟨step, -, rfl⟩ := mem_map.mp hpart
      exact slash_not_mem_body step
    · simpa using hne
  rw [ReadsBack, hparts, forall₂_map_left_iff, forall₂_same]
  intro step _
  have hreads := readsStep_body (printedStep_exact step).readable
  rwa [printedStep_number] at hreads

theorem not_readsBack_cut {init : List UInt32} {last : UInt32} (hk : 1 ≤ k)
    (hlt : k < (printedStep last).digits.length) (hplain : (printedStep last).hardened = false) :
    ¬ ReadsBack (init.flatMap (fun step => (printedStep step).body ++ [0x2F])
      ++ (printedStep last).digits.take k) (init ++ [last]) := by
  have hexact := printedStep_exact last
  have hall : ∀ c ∈ (printedStep last).digits.take k, isDigit c := fun c hc =>
    hexact.decimal.all c (mem_of_mem_take hc)
  have hparts : (init.flatMap (fun step => (printedStep step).body ++ [0x2F])
      ++ (printedStep last).digits.take k).splitOn 0x2F
        = init.map (fun step => (printedStep step).body) ++ [(printedStep last).digits.take k] := by
    have hflat : init.flatMap (fun step => (printedStep step).body ++ [0x2F])
        = (init.map fun step => (printedStep step).body).flatMap (· ++ [0x2F]) := by
      rw [flatMap_map]
    rw [hflat, ← intercalate_concat]
    apply splitOn_intercalate
    · intro part hpart
      rcases mem_append.mp hpart with hpart | hpart
      · obtain ⟨step, -, rfl⟩ := mem_map.mp hpart
        exact slash_not_mem_body step
      · rw [mem_singleton.mp hpart]
        exact slash_not_mem_digits hall
    · simp
  intro h
  rw [ReadsBack, hparts] at h
  have hlast := (forall₂_iff_get.mp h).2 init.length (by simp) (by simp)
  simp only [get_eq_getElem] at hlast
  rw [getElem_append_right (by simp), getElem_append_right (by simp)] at hlast
  simp only [length_map, Nat.sub_self, getElem_cons_zero] at hlast
  have hcut := hlast.of_digits hall
  have hnumber := printedStep_number last
  rw [WrittenStep.number, hplain] at hnumber
  have hless := decimalValue_take_lt hexact.decimal hk hlt
  have hbound := hexact.lt
  have heq := congrArg UInt32.toNat (hnumber.trans hcut)
  simp only [Bool.false_eq_true, if_false, UInt32.toNat_ofNat'] at heq
  omega

def markPieces (step : UInt32) : List Bytes :=
  if (printedStep step).hardened then [[0x27]] else []

def lastPiece (path : List UInt32) : Bytes := ((pathPieces path).getLast?).getD []

theorem pathPieces_concat (init : List UInt32) (last : UInt32) : pathPieces (init ++ [last]) =
      init.flatMap (fun step => (printedStep step).digits :: (markPieces step ++ [[0x2F]]))
        ++ ((printedStep last).digits :: markPieces last) := by
  induction init with
  | nil => simp [pathPieces, markPieces, printedStep]
  | cons step init ih =>
    rw [cons_append, pathPieces, ih]
    simp [markPieces, printedStep]

theorem flatten_pieces (init : List UInt32) :
    (init.flatMap fun step => (printedStep step).digits :: (markPieces step ++ [[0x2F]])).flatten
      = init.flatMap fun step => (printedStep step).body ++ [0x2F] := by
  induction init with
  | nil => rfl
  | cons step init ih =>
    rw [flatMap_cons, flatten_append, ih, flatMap_cons, WrittenStep.body, markPieces]
    split_ifs <;> simp

theorem pathText_concat (init : List UInt32) (last : UInt32) : pathText (init ++ [last]) =
      init.flatMap (fun step => (printedStep step).body ++ [0x2F]) ++ (printedStep last).body := by
  rw [pathText, map_append, map_singleton, intercalate_concat, flatMap_map]

theorem zero_not_mem_digits (step : UInt32) : 0 ∉ (printedStep step).digits := fun hzero =>
  absurd ((printedStep_exact step).decimal.all 0 hzero) (by decide)

theorem piece_ne_nil {piece : Bytes} (hpiece : piece ∈ pathPieces path) : piece ≠ [] ∧ 0 ∉ piece := by
  have hdigits (step : UInt32) : (printedStep step).digits ≠ [] ∧ 0 ∉ (printedStep step).digits :=
    ⟨(printedStep_exact step).decimal.ne_nil, zero_not_mem_digits step⟩
  have hmark {step : UInt32} (hmem : piece ∈ markPieces step) : piece ≠ [] ∧ 0 ∉ piece := by
    rw [markPieces] at hmem
    split_ifs at hmem
    · rw [mem_singleton.mp hmem]
      decide
    · cases hmem
  rcases eq_nil_or_concat' path with rfl | ⟨init, last, rfl⟩
  · cases hpiece
  · rw [pathPieces_concat, mem_append, mem_flatMap] at hpiece
    simp only [mem_cons, mem_append, not_mem_nil, or_false] at hpiece
    rcases hpiece with ⟨step, -, rfl | hmem | rfl⟩ | rfl | hmem
    · exact hdigits step
    · exact hmark hmem
    · decide
    · exact hdigits last
    · exact hmark hmem

/-- All pieces of a path but the last, and the last: a text in which it is cut is not read back. -/
theorem exists_pieces (hne : path ≠ []) : ∃ pieces, pathPieces path = pieces ++ [lastPiece path]
      ∧ pieces.flatten ++ lastPiece path = pathText path
      ∧ ∀ k, 1 ≤ k → k < (lastPiece path).length →
        ¬ ReadsBack (pieces.flatten ++ (lastPiece path).take k) path := by
  rcases eq_nil_or_concat' path with rfl | ⟨init, last, rfl⟩
  · exact absurd rfl hne
  have hpieces := pathPieces_concat init last
  have htext := pathText_concat init last
  rw [WrittenStep.body] at htext
  rw [markPieces] at hpieces
  by_cases hhardened : (printedStep last).hardened
  · rw [if_pos hhardened] at hpieces htext
    have hlast : lastPiece (init ++ [last]) = [0x27] := by
      rw [lastPiece, hpieces]
      simp
    rw [hlast]
    refine ⟨_ ++ [(printedStep last).digits], by rw [hpieces, append_assoc]; rfl, ?_, ?_⟩
    · rw [flatten_append, flatten_pieces, htext]
      simp
    · intro k hk hlt
      rw [length_singleton] at hlt
      omega
  · rw [if_neg hhardened] at hpieces htext
    have hlast : lastPiece (init ++ [last]) = (printedStep last).digits := by
      rw [lastPiece, hpieces]
      simp
    rw [hlast]
    refine ⟨_, hpieces, ?_, ?_⟩
    · rw [flatten_pieces, htext, append_nil]
    · intro k hk hlt
      rw [flatten_pieces]
      exact not_readsBack_cut hk hlt (Bool.eq_false_of_not_eq_true hhardened)

theorem length_pathText_le (path : List UInt32) : (pathText path).length ≤ 12 * path.length := by
  have hbody (step : UInt32) : (printedStep step).body.length ≤ 11 := by
    have hdigits : (printedStep step).digits.length ≤ 10 := by
      apply length_decimalText_le (by decide)
      rw [toNat_and_low]
      exact Nat.lt_trans (Nat.mod_lt _ (by decide)) (by decide)
    rw [WrittenStep.body, length_append]
    split_ifs <;> simp only [length_singleton, length_nil] <;> omega
  rcases eq_nil_or_concat' path with rfl | ⟨init, last, rfl⟩
  · simp [pathText]
  · have hinit : (init.flatMap fun step => (printedStep step).body ++ [0x2F]).length ≤ 12 * init.length := by
      induction init with
      | nil => simp
      | cons step init ih =>
        have := hbody step
        simp only [flatMap_cons, length_append, length_cons, length_nil]
        omega
    have := hbody last
    rw [pathText_concat, length_append, length_append, length_singleton]
    omega

/-- The formatter fails, or leaves a terminated string in the output that reads back as the path;
nothing else is written. -/
def FormatsBack (path : List UInt32) (m : Memory) (addr outLen : Nat) : Prop :=
  let result := bip32PathFormat path m addr outLen
  (∀ i, i < addr ∨ addr + outLen ≤ i → result.2 i = m i)
    ∧ (result.1 → ∃ text, text.length < outLen ∧ 0 ∉ text
      ∧ result.2.read addr (text.length + 1) = text ++ [0] ∧ ReadsBack text path)

/-- What the formatter leaves: the text of the path with the last piece cut to the room, if any of
it fits. -/
theorem bip32PathFormat_spec (hne : path ≠ [])
    (hsteps : path.length ≤ maxBip32PathSteps) (m : Memory) (addr outLen : Nat) :
    (∀ i, i < addr ∨ addr + outLen ≤ i → (bip32PathFormat path m addr outLen).2 i = m i)
      ∧ ((bip32PathFormat path m addr outLen).1 ↔
        (pathText path).length + 1 < outLen + (lastPiece path).length)
      ∧ ((bip32PathFormat path m addr outLen).1 → (bip32PathFormat path m addr outLen).2.read addr
            (((pathText path).take (outLen - 1)).length + 1)
          = (pathText path).take (outLen - 1) ++ [0]) := by
  obtain ⟨pieces, hpieces, htext, -⟩ := exists_pieces hne
  have hlastne : lastPiece path ≠ [] := (piece_ne_nil (by rw [hpieces]; simp)).1
  have hlength := congrArg length htext
  rw [length_append] at hlength
  have hpos := length_pos_iff.mpr hlastne
  by_cases hzero : outLen < 1
  · rw [bip32PathFormat, if_pos (.inr hzero)]
    refine ⟨fun _ _ => rfl, ?_, fun h => (by cases h)⟩
    simp only [Bool.false_eq_true, false_iff]
    omega
  · have hlen : path.length ≠ 0 := fun h => hne (length_eq_zero_iff.mp h)
    have hformat : bip32PathFormat path m addr outLen =
        printPieces addr outLen (pathPieces path) m ([] : Bytes).length := by
      rw [bip32PathFormat, if_neg (by omega), if_neg hlen]
      rfl
    have hstart : Printed m addr outLen [] m := ⟨rfl, by simp only [length_nil]; omega, fun _ _ => rfl⟩
    obtain ⟨hsome, houtside, hprinted⟩ := printPieces_eq (fun piece hpiece => (piece_ne_nil hpiece).2) hstart
    rw [← hformat] at hsome houtside hprinted
    have htextPrinted : printedText outLen (pathPieces path) [] =
        if pieces.flatten.length + 1 < outLen then some ((pathText path).take (outLen - 1))
        else none := by
      rw [hpieces, printedText_concat
        (fun piece hpiece => (piece_ne_nil (by rw [hpieces]; simp [hpiece])).1) hlastne hstart.room,
        nil_append]
      split_ifs with hfits
      · rw [← htext, take_append, take_of_length_le (i := outLen - 1) (by omega), Nat.sub_right_comm]
      · rfl
    rw [htextPrinted] at hsome hprinted
    refine ⟨houtside, ?_, fun hok => ?_⟩
    · refine (Bool.eq_iff_iff.mp hsome).trans ?_
      split_ifs with hfits
      · simp only [Option.isSome_some, true_iff]
        omega
      · simp only [Option.isSome_none, Bool.false_eq_true, false_iff]
        omega
    · have hfits : pieces.flatten.length + 1 < outLen := by
        by_contra hnot
        rw [if_neg hnot] at hsome
        exact absurd (hok.symm.trans hsome) (by decide)
      rw [if_pos hfits] at hprinted
      obtain ⟨hprinted, hend⟩ := hprinted _ rfl
      rw [Memory.read_add, hprinted.read, Memory.read_succ, hend (by rw [hpieces]; simp)]
      rfl

theorem terminated_unique {text other : Bytes}
    (htext : m.read addr (text.length + 1) = text ++ [0]) (hzero : 0 ∉ text)
    (hother : m.read addr (other.length + 1) = other ++ [0]) (hzero' : 0 ∉ other) : text = other := by
  induction text generalizing addr other with
  | nil =>
    rw [Memory.read_succ] at htext hother
    cases other with
    | nil => rfl
    | cons c other =>
      have hfirst := (cons.inj htext).1.symm.trans (cons.inj hother).1
      exact absurd (hfirst ▸ mem_cons_self) hzero'
  | cons c text ih =>
    rw [Memory.read_succ, cons_append] at htext
    rw [Memory.read_succ] at hother
    obtain ⟨hc, htext⟩ := cons.inj htext
    obtain ⟨hne, hzero⟩ := not_or.mp (mt mem_cons.mpr hzero)
    cases other with
    | nil => exact absurd (hc.symm.trans (cons.inj hother).1).symm hne
    | cons d other =>
      obtain ⟨hd, hother⟩ := cons.inj hother
      obtain ⟨-, hzero'⟩ := not_or.mp (mt mem_cons.mpr hzero')
      rw [ih htext hzero hother hzero', ← hc, ← hd]

/-- The formatter keeps its promise unless the last piece is cut; the callers' buffers hold every
path. -/
theorem bip32PathFormat_formatsBack_iff {path : List UInt32} (hne : 1 ≤ path.length)
    (hsteps : path.length ≤ maxBip32PathSteps) (m : Memory) (addr : Nat) :
    (∀ outLen, FormatsBack path m addr outLen ↔ (pathText path).length < outLen
          ∨ outLen + (lastPiece path).length ≤ (pathText path).length + 1)
      ∧ (bip32PathFormat path m addr (maxSerializedBip32PathLength + 1)).1
      ∧ FormatsBack path m addr (maxSerializedBip32PathLength + 1) := by
  have hpath : path ≠ [] := length_pos_iff.mp hne
  obtain ⟨pieces, hpieces, htext, hcut⟩ := exists_pieces hpath
  have hlastne : lastPiece path ≠ [] := (piece_ne_nil (by rw [hpieces]; simp)).1
  have hpos := length_pos_iff.mpr hlastne
  have hlength := congrArg length htext
  rw [length_append] at hlength
  have hzero : 0 ∉ pathText path := by
    intro hmem
    rw [← htext, ← flatten_concat, ← hpieces, mem_flatten] at hmem
    obtain ⟨piece, hpiece, hmem⟩ := hmem
    exact (piece_ne_nil hpiece).2 hmem
  have hiff (outLen : Nat) : FormatsBack path m addr outLen ↔ (pathText path).length < outLen
        ∨ outLen + (lastPiece path).length ≤ (pathText path).length + 1 := by
    obtain ⟨houtside, hok, hread⟩ := bip32PathFormat_spec hpath hsteps m addr outLen
    refine ⟨fun h => ?_, fun h => ⟨houtside, fun hsucceeds => ?_⟩⟩
    · by_contra hnot
      obtain ⟨hlong, hsome⟩ := not_or.mp hnot
      have hsucceeds := hok.mpr (by omega)
      obtain ⟨text, hroom, hnozero, hstring, hback⟩ := h.2 hsucceeds
      have htaken : text = pieces.flatten ++ (lastPiece path).take (outLen - 1 - pieces.flatten.length) := by
        rw [terminated_unique hstring hnozero (hread hsucceeds)
          (fun hmem => hzero (mem_of_mem_take hmem)), ← htext, take_append,
          take_of_length_le (i := outLen - 1) (by omega)]
      rw [htaken] at hback
      exact hcut _ (by omega) (by omega) hback
    · have hfits : (pathText path).length < outLen := by
        have := hok.mp hsucceeds
        omega
      have hread := hread hsucceeds
      rw [take_of_length_le (by omega)] at hread
      exact ⟨pathText path, hfits, hzero, hread, readsBack_pathText hpath⟩
  have hfits : (pathText path).length < maxSerializedBip32PathLength + 1 := by
    have := length_pathText_le path
    rw [maxSerializedBip32PathLength]
    omega
  refine ⟨hiff, ?_, (hiff _).mpr (.inl hfits)⟩
  exact (bip32PathFormat_spec hpath hsteps m addr _).2.1.mpr (by omega)

theorem bip32PathFormat_formatsBack_purpose :
    FormatsBack [0x80000054, 1] (Memory.ofList []) 0 (maxSerializedBip32PathLength + 1) :=
  (bip32PathFormat_formatsBack_iff (by decide) (by decide) (Memory.ofList []) 0).2.2

/-- `12` is printed into two bytes as `1`, with success. -/
theorem not_formatsBack_twelve : ¬ FormatsBack [12] (Memory.ofList []) 0 2 := by
  intro h
  obtain ⟨text, hroom, hzero, hread, hback⟩ := h.2 (by decide +kernel)
  have hone : (bip32PathFormat [12] (Memory.ofList []) 0 2).2.read 0 2 = [0x31] ++ [0] := by
    decide +kernel
  have htext : text = [0x31] := terminated_unique hread hzero hone (by decide)
  rw [htext] at hback
  obtain ⟨hstep, -⟩ := forall₂_cons.mp hback
  exact absurd (hstep.of_digits (by decide +kernel)) (by decide)

end LedgerBabylon
