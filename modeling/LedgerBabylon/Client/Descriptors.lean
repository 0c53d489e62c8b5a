import LedgerBabylon.Client.WalletPolicy
import LedgerBabylon.Lib.TextRewriting

/-!
# Descriptors of wallet policies

A client makes a descriptor from a template by putting the key infos in the place of the placeholders,
and one branch in the place of every `/**` and every `/<M;N>`. Both clients rewrite the text in three
passes and differ in the last one: the Python client replaces what a regular expression matches, the
Rust client the first `/<` up to the first `>`, as long as there is a `/<`. It never ends if there is no
`>`.
-/

namespace LedgerBabylon

open TextRewriting List

def replaceAll (pattern replacement : Text) : Text → Text :=
  rewrite (fun s => if pattern.isPrefixOf s then some (replacement, pattern.length) else none) 0

def placeholder (i : Nat) : Text := '@' :: Nat.toDigits 10 i

def insertKeys (keysInfo : List Text) (desc : Text) : Text :=
  keysInfo.zipIdx.foldr (fun key => replaceAll (placeholder key.2) key.1) desc

def branchPath (change : Bool) : Text := if change then ['/', '1', '/', '*'] else ['/', '0', '/', '*']

namespace Rust

inductive Descriptor
  | ok (desc : Text)
  | invalidPolicy
  | panic
  deriving DecidableEq

/-- The `while let` loop over `/<m;n>`. Without a `>` it does not end, with one before it a slice panics. -/
def chooseBranches (change : Bool) : Nat → Text → Option Descriptor
  | 0, _ => none
  | rounds + 1, desc =>
    match position ['/', '<'].isPrefixOf desc with
    | none => some (.ok desc)
    | some start =>
      match position ['>'].isPrefixOf desc with
      | none => chooseBranches change rounds desc
      | some stop =>
        if stop < start + 2 then some .panic
        else
          match ((desc.take stop).drop (start + 2)).splitOn ';' with
          | [m, n] => chooseBranches change rounds
              (desc.take (start + 1) ++ (if change then n else m) ++ desc.drop (stop + 1))
          | _ => some .invalidPolicy

def getDescriptor {K : Type} (toString : K → Text) (descriptorTemplate : Text) (keys : List K) (change : Bool)
    (rounds : Nat) : Option Descriptor :=
  let desc := insertKeys (keys.map toString) descriptorTemplate
  chooseBranches change rounds (replaceAll ['/', '*', '*'] (branchPath change) desc)

end Rust

namespace Python

/-- The regular expression of `/<m;n>` at one position: its replacement and its length. -/
def matchMultipath (isDecimal : Char → Bool) (change : Bool) : Text → Option (Text × Nat)
  | '/' :: '<' :: s =>
    let m := s.takeWhile isDecimal
    match s.dropWhile isDecimal with
    | ';' :: s =>
      let n := s.takeWhile isDecimal
      match s.dropWhile isDecimal with
      | '>' :: _ =>
        if m = [] ∨ n = [] then none
        else some ('/' :: (if change then n else m), m.length + n.length + 4)
      | _ => none
    | _ => none
  | _ => none

def getDescriptor (isDecimal : Char → Bool) (version : WalletVersion) (descriptorTemplate : Text)
    (keysInfo : List Text) (change : Option Bool) : Text :=
  let desc := insertKeys keysInfo descriptorTemplate
  match change with
  | none => replaceAll ['/', '*', '*'] ['/', '<', '0', ';', '1', '>', '/', '*'] desc
  | some change =>
    let desc := replaceAll ['/', '*', '*'] (branchPath change) desc
    if version = .v2 then rewrite (matchMultipath isDecimal change) 0 desc else desc

end Python

inductive Piece
  | char (c : Char)
  | key (i : Nat)
  | wildcard
  | multipath (m n : Text)
  | star

namespace Piece

def text : Piece → Text
  | char c => [c]
  | key i => placeholder i
  | wildcard => ['/', '*', '*']
  | multipath m n => ['/', '<'] ++ m ++ ';' :: n ++ ['>']
  | star => ['/', '*']

def IsNumber (s : Text) : Prop := s ≠ [] ∧ ∀ c ∈ s, c.isDigit

/-- The pieces of a policy with the given number of keys. Version 1 has no `/<M;N>`. -/
def Valid (version : WalletVersion) (nKeys : Nat) : Piece → Prop
  | char c => c ∉ ['@', '*', '<', '>']
  | key i => i < nKeys
  | multipath m n => version = .v2 ∧ IsNumber m ∧ IsNumber n
  | _ => True

def Separates : Piece → Prop
  | char c => ¬c.isDigit
  | key _ => False
  | _ => True

def substitute (keys : List (List Piece)) : Piece → List Piece
  | key i => keys.getD i []
  | t => [t]

def opened (change : Bool) : Piece → Text
  | wildcard => branchPath change
  | t => t.text

def branch (change : Bool) : Piece → Text
  | multipath m n => '/' :: if change then n else m
  | t => t.opened change

end Piece

/-- A policy in which the special characters only stand where they have a meaning. The key infos have
no placeholders. -/
structure WellWritten (version : WalletVersion) (template : List Piece) (keys : List (List Piece)) : Prop where
  templateValid : ∀ t ∈ template, t.Valid version keys.length
  keysValid : ∀ key ∈ keys, ∀ t ∈ key, t.Valid version 0
  separated : template.IsChain fun t next => (∃ i, t = .key i) → next.Separates

/-- The template with every placeholder replaced by its key info, and all branches chosen. -/
def expandedText (template : List Piece) (keys : List (List Piece)) (change : Bool) : Text :=
  (template.flatMap (Piece.substitute keys)).flatMap (Piece.branch change)

theorem le_of_toDigits_prefix {k i : Nat} (h : Nat.toDigits 10 k <+: Nat.toDigits 10 i) : k ≤ i := by
  obtain ⟨rest, hrest⟩ := h
  have hvalue := congrArg (Nat.ofDigitChars 10 · 0) hrest
  rw [Nat.ofDigitChars_append, Nat.ofDigitChars_ten_toDigits, Nat.ofDigitChars_ten_toDigits,
    Nat.ofDigitChars_eq_ofDigitChars_zero] at hvalue
  have hpos : 0 < 10 ^ rest.length := Nat.pow_pos (by decide)
  have := Nat.le_mul_of_pos_left k hpos
  omega

theorem toDigits_prefix_of_append {k i : Nat} {rest : Text} (hrest : ∀ c ∈ rest.head?, ¬c.isDigit)
    (h : Nat.toDigits 10 k <+: Nat.toDigits 10 i ++ rest) : Nat.toDigits 10 k <+: Nat.toDigits 10 i := by
  rcases Nat.le_total (Nat.toDigits 10 k).length (Nat.toDigits 10 i).length with hle | hlt
  · exact prefix_of_prefix_length_le h (prefix_append _ _) hle
  · obtain ⟨tail, htail⟩ := prefix_of_prefix_length_le (prefix_append _ _) h hlt
    rw [← htail, prefix_append_right_inj] at h
    cases tail with
    | nil => rw [← htail, append_nil]
    | cons c tail =>
      obtain ⟨s, hs⟩ := h
      have hmem : c ∈ Nat.toDigits 10 k := by
        rw [← htail]
        simp
      have hc : c.isDigit := Nat.isDigit_of_mem_toDigits (by decide) (by decide) hmem
      exact absurd hc (hrest c (by rw [← hs]; rfl))

theorem at_notMem_toDigits (i : Nat) : '@' ∉ Nat.toDigits 10 i := fun h =>
  absurd (Nat.isDigit_of_mem_toDigits (by decide) (by decide) h) (by decide)

namespace Piece

theorem IsNumber.notMem {s : Text} (h : IsNumber s) {c : Char} (hc : c.isDigit = false) : c ∉ s := fun hmem => by
  rw [h.2 c hmem] at hc
  cases hc

def stage (keys : List (List Piece)) (k : Nat) : Piece → Text
  | key i => if k ≤ i then (keys.getD i []).flatMap text else placeholder i
  | t => t.text

variable {version : WalletVersion} {t : Piece}

theorem Valid.at_notMem_text {nKeys : Nat} (h : t.Valid version nKeys) (hkey : ∀ i, t ≠ key i) :
    '@' ∉ t.text := by
  cases t with
  | char c =>
    intro hmem
    obtain rfl := mem_singleton.mp hmem
    simp [Valid] at h
  | key i => exact absurd rfl (hkey i)
  | wildcard => decide
  | multipath m n =>
    have hm := h.2.1.notMem (c := '@') rfl
    have hn := h.2.2.notMem (c := '@') rfl
    simp [text, hm, hn]
  | star => decide

/-- No piece begins with a special character. -/
theorem Valid.head_opened (h : t.Valid version 0) (change : Bool) :
    ∃ c s s', t.text = c :: s ∧ t.opened change = c :: s' ∧ c ∉ ['@', '*', '<', '>'] := by
  cases t with
  | char c => exact ⟨c, [], [], rfl, rfl, h⟩
  | key i => exact absurd h (Nat.not_lt_zero i)
  | wildcard => cases change <;> exact ⟨'/', _, _, rfl, rfl, by decide⟩
  | multipath m n => exact ⟨'/', _, _, rfl, rfl, by decide⟩
  | star => exact ⟨'/', _, _, rfl, rfl, by decide⟩

end Piece

section

variable {version : WalletVersion} {template : List Piece} {keys : List (List Piece)}

theorem at_notMem_flatMap {pieces : List Piece} (h : ∀ t ∈ pieces, t.Valid version 0) :
    '@' ∉ pieces.flatMap Piece.text := by
  rw [mem_flatMap]
  rintro ⟨t, ht, hmem⟩
  refine (h t ht).at_notMem_text ?_ hmem
  rintro i rfl
  exact Nat.not_lt_zero i (h _ ht)

theorem stays_of_at_notMem {k : Nat} {replacement a : Text} (h : '@' ∉ a) (rest : Text) :
    Stays (fun s => (if (placeholder k).isPrefixOf s then
      some (replacement, (placeholder k).length) else none).isSome) a rest := by
  apply Stays.of_forall
  intro c hc s
  have hne : ('@' == c) = false := beq_eq_false_iff_ne.mpr fun heq => h (heq ▸ hc)
  simp [placeholder, isPrefixOf, hne]

/-- What follows a placeholder does not go on with a digit. -/
theorem WellWritten.head_stage (h : WellWritten version template keys) {i : Nat} {rest : List Piece}
    (hsuffix : .key i :: rest <:+ template) (k : Nat) :
    ∀ c ∈ (rest.flatMap (Piece.stage keys k)).head?, ¬c.isDigit := by
  have hchain := h.separated.suffix hsuffix
  cases rest with
  | nil => simp
  | cons next rest =>
    have hseparates := (isChain_cons_cons.mp hchain).1 ⟨i, rfl⟩
    cases next with
    | char c => simpa [Piece.stage, Piece.text, Piece.Separates] using hseparates
    | key i => exact hseparates.elim
    | wildcard => simp [Piece.stage, Piece.text]
    | multipath m n => simp [Piece.stage, Piece.text]
    | star => simp [Piece.stage, Piece.text]

theorem replaceAll_stage (h : WellWritten version template keys) {k : Nat} (hk : k < keys.length) :
    replaceAll (placeholder k) ((keys.getD k []).flatMap Piece.text) (template.flatMap (Piece.stage keys (k + 1))) =
      template.flatMap (Piece.stage keys k) := by
  have hkeyText (i : Nat) : '@' ∉ (keys.getD i []).flatMap Piece.text := by
    have hvalid : ∀ t ∈ keys.getD i [], t.Valid version 0 := by
      rw [getD_eq_getElem?_getD]
      cases hget : keys[i]? with
      | none => simp
      | some key => exact h.keysValid key (mem_of_getElem? hget)
    exact at_notMem_flatMap hvalid
  apply rewrite_flatMap
  intro t rest hsuffix
  have hvalid := h.templateValid t (hsuffix.mem mem_cons_self)
  cases t with
  | key i =>
    rcases Nat.lt_trichotomy i k with hlt | rfl | hgt
    · -- the placeholder of a smaller index stays as it is
      right
      simp only [Piece.stage, if_neg (show ¬k ≤ i by omega), if_neg (show ¬k + 1 ≤ i by omega), true_and]
      apply Stays.cons _ (stays_of_at_notMem (at_notMem_toDigits i) _)
      have hnot : ¬(Nat.toDigits 10 k).isPrefixOf (Nat.toDigits 10 i ++ rest.flatMap (Piece.stage keys (k + 1))) := by
        intro hprefix
        have := le_of_toDigits_prefix (toDigits_prefix_of_append (h.head_stage hsuffix _)
          ( isPrefixOf_iff_prefix.mp hprefix))
        omega
      simp [placeholder, hnot]
    · left
      simp [Piece.stage, placeholder]
    · right
      simp only [Piece.stage, if_pos (show k ≤ i by omega), if_pos (show k + 1 ≤ i by omega), true_and]
      exact stays_of_at_notMem (hkeyText i) _
  | _ =>
    right
    exact ⟨rfl, stays_of_at_notMem (hvalid.at_notMem_text (by simp)) _⟩

theorem insertKeys_eq (h : WellWritten version template keys) :
    insertKeys (keys.map (·.flatMap Piece.text)) (template.flatMap Piece.text) =
      (template.flatMap (Piece.substitute keys)).flatMap Piece.text := by
  -- from the last key to the first one
  have hfold (l : List (List Piece)) (k : Nat) (hl : keys.drop k = l) :
      ((l.map (·.flatMap Piece.text)).zipIdx k).foldr (fun key => replaceAll (placeholder key.2) key.1)
        (template.flatMap Piece.text) = template.flatMap (Piece.stage keys k) := by
    induction l generalizing k with
    | nil =>
      have hk := drop_eq_nil_iff.mp hl
      apply flatMap_congr
      intro t ht
      have hvalid := h.templateValid t ht
      cases t with
      | key i =>
        rw [Piece.stage, if_neg fun hle => absurd hvalid (not_lt.mpr (hk.trans hle))]
        rfl
      | _ => rfl
    | cons key l ih =>
      have hk : k < keys.length := by
        rw [← not_le, ← drop_eq_nil_iff, hl]
        exact cons_ne_nil key l
      have hkey : keys.getD k [] = key := by
        have := congrArg head? hl
        rw [head?_drop] at this
        rw [getD_eq_getElem?_getD, this]
        rfl
      rw [map_cons, zipIdx_cons, foldr_cons, ih (k + 1) (by rw [← tail_drop, hl]; rfl), ← hkey]
      exact replaceAll_stage h hk
  rw [insertKeys, hfold keys 0 rfl, flatMap_assoc]
  apply flatMap_congr
  intro t _
  cases t with
  | key i =>
    rw [Piece.stage, if_pos (Nat.zero_le i)]
    rfl
  | _ => exact (flatMap_singleton _ _).symm

end

structure Unicode where
  isDecimal : Char → Bool
  isDecimal_of_isDigit : ∀ c, c.isDigit → isDecimal c
  not_isDecimal : ∀ c ∈ [';', '>'], isDecimal c = false

theorem stays_singleton {α : Type} {p : List α → Bool} {c : α} {rest : List α} (h : p (c :: rest) = false) :
    Stays p [c] rest := .cons h (.nil rest)

section

variable {version : WalletVersion} {pieces : List Piece} (h : ∀ t ∈ pieces, t.Valid version 0) (change : Bool)

include h

theorem head_flatMap {f : Piece → Text} (hf : f = Piece.text ∨ f = Piece.opened change) {c : Char}
    (hc : (pieces.flatMap f).head? = some c) : c ∉ ['@', '*', '<', '>'] := by
  cases pieces with
  | nil => cases hc
  | cons t pieces =>
    obtain ⟨d, s, s', htext, hopened, hd⟩ := (h t mem_cons_self).head_opened change
    have hhead : some d = some c := by
      rcases hf with rfl | rfl
      · rwa [flatMap_cons, htext] at hc
      · rwa [flatMap_cons, hopened] at hc
    exact Option.some.inj hhead ▸ hd

theorem replaceAll_wildcard : replaceAll ['/', '*', '*'] (branchPath change) (pieces.flatMap Piece.text) =
      pieces.flatMap (Piece.opened change) := by
  apply rewrite_flatMap
  intro t rest hsuffix
  have hvalid := h t (hsuffix.mem mem_cons_self)
  have hstar : ['*'].isPrefixOf (rest.flatMap Piece.text) = false := by
    have hhead := @head_flatMap _ _ (fun u hu => h u (hsuffix.mem (mem_cons_of_mem t hu))) change _ (Or.inl rfl)
    cases hrest : rest.flatMap Piece.text with
    | nil => rfl
    | cons c s =>
      have hc := hhead (congrArg head? hrest)
      simp only [mem_cons, not_or] at hc
      simp [isPrefixOf, Ne.symm hc.2.1]
  have hslash {c : Char} (hc : c ≠ '/') (s : Text) : ['/', '*', '*'].isPrefixOf (c :: s) = false := by
    simp [isPrefixOf, Ne.symm hc]
  cases t with
  | key i => exact absurd hvalid (Nat.not_lt_zero i)
  | wildcard => exact Or.inl ⟨by decide, by simp [Piece.text, Piece.opened]⟩
  | char c =>
    refine Or.inr ⟨rfl, stays_singleton ?_⟩
    cases hrest : rest.flatMap Piece.text with
    | nil => simp [isPrefixOf]
    | cons d s =>
      rw [hrest] at hstar
      simp_all [isPrefixOf]
  | star =>
    refine Or.inr ⟨rfl, .cons ?_ (stays_singleton ?_)⟩
    · simp_all [isPrefixOf]
    · simp [isPrefixOf]
  | multipath m n =>
    obtain ⟨-, hm, hn⟩ := hvalid
    refine Or.inr ⟨rfl, .cons (by simp [isPrefixOf]) (Stays.of_forall ?_ _)⟩
    intro c hc s
    rw [hslash]
    · rfl
    · rintro rfl
      have := hm.notMem (c := '/') rfl
      have := hn.notMem (c := '/') rfl
      simp_all

theorem rewrite_matchMultipath (unicode : Unicode) :
    rewrite (Python.matchMultipath unicode.isDecimal change) 0 (pieces.flatMap (Piece.opened change)) =
      pieces.flatMap (Piece.branch change) := by
  have hnone {s : Text} (hs : ∀ s', s ≠ '/' :: '<' :: s') :
      (Python.matchMultipath unicode.isDecimal change s).isSome = false := by
    unfold Python.matchMultipath
    split
    · exact absurd rfl (hs _)
    · rfl
  apply rewrite_flatMap
  intro t rest hsuffix
  have hvalid := h t (hsuffix.mem mem_cons_self)
  cases t with
  | key i => exact absurd hvalid (Nat.not_lt_zero i)
  | wildcard =>
    refine Or.inr ⟨rfl, ?_⟩
    cases change <;> exact .cons rfl (.cons rfl (.cons rfl (stays_singleton rfl)))
  | char c =>
    refine Or.inr ⟨rfl, stays_singleton (hnone fun s heq => ?_)⟩
    have hhead := head_flatMap (fun u hu => h u (hsuffix.mem (mem_cons_of_mem _ hu))) change (Or.inr rfl)
      (congrArg head? (cons.inj heq).2)
    simp at hhead
  | star => exact Or.inr ⟨rfl, .cons rfl (stays_singleton rfl)⟩
  | multipath m n =>
    obtain ⟨-, hm, hn⟩ := hvalid
    have hdigits {s : Text} (hs : Piece.IsNumber s) : ∀ c ∈ s, unicode.isDecimal c :=
      fun c hc => unicode.isDecimal_of_isDigit c (hs.2 c hc)
    have hsemicolon := unicode.not_isDecimal ';' (by decide)
    have hclose := unicode.not_isDecimal '>' (by decide)
    refine Or.inl ⟨by simp [Piece.opened, Piece.text], ?_⟩
    simp [Piece.opened, Piece.text, Piece.branch, Python.matchMultipath, takeWhile_append_of_pos (hdigits hm),
      dropWhile_append_of_pos (hdigits hm), takeWhile_append_of_pos (hdigits hn),
      dropWhile_append_of_pos (hdigits hn), hsemicolon, hclose, hm.1, hn.1]
    omega

end

theorem stays_open {a rest : Text} (ha : '<' ∉ a) (hrest : ∀ s, rest ≠ '<' :: s) :
    Stays ['/', '<'].isPrefixOf a rest := by
  induction a with
  | nil => exact .nil rest
  | cons c a ih =>
    refine .cons ?_ (ih fun hmem => ha (mem_cons_of_mem c hmem))
    cases htail : a ++ rest with
    | nil => simp [isPrefixOf]
    | cons d s =>
      have hd : '<' ≠ d := by
        rintro rfl
        cases a with
        | nil => exact hrest s htail
        | cons e a =>
          obtain ⟨rfl, -⟩ := cons.inj htail
          exact ha (mem_cons_of_mem c mem_cons_self)
      simp [isPrefixOf, hd]

/-- One round takes the first `/<M;N>`. -/
theorem chooseBranches_multipath {before m n : Text} (hbefore : '<' ∉ before ∧ '>' ∉ before) (hm : Piece.IsNumber m)
    (hn : Piece.IsNumber n) (change : Bool) (rounds : Nat) (rest : Text) :
    Rust.chooseBranches change (rounds + 1) (before ++ ((Piece.multipath m n).text ++ rest)) =
      Rust.chooseBranches change rounds (before ++ ('/' :: (if change then n else m) ++ rest)) := by
  have hopen : position ['/', '<'].isPrefixOf (before ++ ((Piece.multipath m n).text ++ rest)) = some before.length := by
    rw [position_append (stays_open hbefore.1 fun s => by simp [Piece.text])]
    simp [Piece.text, position]
  have hdesc : before ++ ((Piece.multipath m n).text ++ rest) =
      (before ++ '/' :: '<' :: (m ++ ';' :: n)) ++ '>' :: rest := by simp [Piece.text]
  have hclose : position ['>'].isPrefixOf (before ++ ((Piece.multipath m n).text ++ rest)) =
      some (before ++ '/' :: '<' :: (m ++ ';' :: n)).length := by
    have hstays : Stays ['>'].isPrefixOf (before ++ '/' :: '<' :: (m ++ ';' :: n)) ('>' :: rest) := by
      apply Stays.of_forall
      intro c hc s
      have hne : '>' ≠ c := by
        rintro rfl
        have hm := hm.notMem (c := '>') rfl
        have hn := hn.notMem (c := '>') rfl
        simp [hbefore.2, hm, hn] at hc
      simp [isPrefixOf, hne]
    rw [hdesc, position_append hstays]
    simp [position]
  have hsplit : (m ++ ';' :: n).splitOn ';' = [m, n] := by
    rw [splitOn_append_cons_self, splitOn_eq_singleton (hm.notMem rfl),
      splitOn_eq_singleton (hn.notMem rfl)]
    rfl
  have hstop : ¬(before ++ '/' :: '<' :: (m ++ ';' :: n)).length < before.length + 2 := by
    simp only [length_append, length_cons]
    omega
  have hslice : (before ++ '/' :: '<' :: (m ++ ';' :: n)).drop (before.length + 2) = m ++ ';' :: n := by
    rw [drop_append]
    simp
  have hstart : (before ++ '/' :: '<' :: (m ++ ';' :: n) ++ '>' :: rest).take (before.length + 1) = before ++ ['/'] := by
    rw [append_assoc, take_append]
    simp
  have hend : (before ++ '/' :: '<' :: (m ++ ';' :: n) ++ '>' :: rest).drop
      ((before ++ '/' :: '<' :: (m ++ ';' :: n)).length + 1) = rest := by
    rw [← drop_drop, drop_left]
    rfl
  rw [Rust.chooseBranches, hopen, hclose]
  dsimp only
  rw [if_neg hstop, hdesc, take_left, hslice, hsplit]
  dsimp only
  rw [hstart, hend, append_assoc, append_assoc, cons_append]
  rfl

theorem chooseBranches_opened {version : WalletVersion} {pieces : List Piece}
    (h : ∀ t ∈ pieces, t.Valid version 0) (change : Bool) {rounds : Nat} (hrounds : pieces.length < rounds)
    (before : Text) (hbefore : '<' ∉ before ∧ '>' ∉ before) :
    Rust.chooseBranches change rounds (before ++ pieces.flatMap (Piece.opened change)) =
      some (.ok (before ++ pieces.flatMap (Piece.branch change))) := by
  induction pieces generalizing before rounds with
  | nil =>
    obtain ⟨rounds, rfl⟩ := Nat.exists_eq_succ_of_ne_zero (Nat.ne_of_gt hrounds)
    rw [flatMap_nil, flatMap_nil, Rust.chooseBranches,
      position_append (stays_open hbefore.1 fun s => by simp)]
    rfl
  | cons t pieces ih =>
    have hvalid := h t mem_cons_self
    have hpieces : ∀ u ∈ pieces, u.Valid version 0 := fun u hu => h u (mem_cons_of_mem t hu)
    have hstay (hopened : t.branch change = t.opened change)
        (hplain : '<' ∉ t.opened change ∧ '>' ∉ t.opened change) :
        Rust.chooseBranches change rounds (before ++ (t :: pieces).flatMap (Piece.opened change)) =
          some (.ok (before ++ (t :: pieces).flatMap (Piece.branch change))) := by
      rw [flatMap_cons, flatMap_cons, hopened, ← append_assoc, ← append_assoc]
      apply ih hpieces (Nat.lt_of_succ_lt hrounds) _
      simp [hbefore, hplain]
    cases t with
    | key i => exact absurd hvalid (Nat.not_lt_zero i)
    | char c =>
      simp only [Piece.Valid, mem_cons, not_or] at hvalid
      apply hstay rfl
      simp [Piece.opened, Piece.text, Ne.symm hvalid.2.2.1, Ne.symm hvalid.2.2.2.1]
    | wildcard => exact hstay rfl (by cases change <;> decide)
    | star => exact hstay rfl (by cases change <;> decide)
    | multipath m n =>
      obtain ⟨-, hm, hn⟩ := hvalid
      obtain ⟨rounds, rfl⟩ := Nat.exists_eq_succ_of_ne_zero (Nat.ne_of_gt (Nat.zero_lt_of_lt hrounds))
      have hchosen : Piece.IsNumber (if change then n else m) := by split <;> assumption
      have hplain : '<' ∉ before ++ '/' :: (if change then n else m) ∧ '>' ∉ before ++ '/' :: (if change then n else m) := by
        have hopen := hchosen.notMem (c := '<') rfl
        have hclose := hchosen.notMem (c := '>') rfl
        simp [hbefore, hopen, hclose]
      rw [flatMap_cons, flatMap_cons]
      refine (chooseBranches_multipath hbefore hm hn change rounds _).trans ?_
      rw [← append_assoc, ih hpieces (Nat.lt_of_succ_lt_succ hrounds) _ hplain, append_assoc]
      rfl

theorem chooseBranches_mono {change : Bool} {rounds more : Nat} {desc : Text} {result : Rust.Descriptor}
    (h : Rust.chooseBranches change rounds desc = some result) (hle : rounds ≤ more) :
    Rust.chooseBranches change more desc = some result := by
  induction rounds generalizing more desc with
  | zero => cases h
  | succ rounds ih =>
    obtain ⟨more, rfl⟩ := Nat.exists_eq_succ_of_ne_zero (Nat.ne_of_gt (Nat.zero_lt_of_lt hle))
    have hle := Nat.le_of_succ_le_succ hle
    simp only [Rust.chooseBranches] at h ⊢
    cases hopen : position ['/', '<'].isPrefixOf desc with
    | none => simpa only [hopen] using h
    | some start =>
      cases hclose : position ['>'].isPrefixOf desc with
      | none =>
        simp only [hopen, hclose] at h ⊢
        exact ih h hle
      | some stop =>
        simp only [hopen, hclose] at h ⊢
        by_cases hstop : stop < start + 2
        · simpa only [if_pos hstop] using h
        · rw [if_neg hstop] at h ⊢
          split at h
          · exact ih h hle
          · exact h

theorem WellWritten.substitute_valid {version : WalletVersion} {template : List Piece} {keys : List (List Piece)}
    (h : WellWritten version template keys) : ∀ t ∈ template.flatMap (Piece.substitute keys), t.Valid version 0 := by
  intro u hu
  obtain ⟨t, ht, hmem⟩ := mem_flatMap.mp hu
  have hvalid := h.templateValid t ht
  cases t with
  | key i =>
    rw [Piece.substitute, getD_eq_getElem _ _ hvalid] at hmem
    exact h.keysValid _ (getElem_mem _) u hmem
  | _ =>
    obtain rfl := mem_singleton.mp hmem
    exact hvalid

/-- The Rust client ends, and where it gives a descriptor the Python client gives the same. -/
def DescriptorsAgree {K : Type} (toString : K → Text) (unicode : Unicode) (version : WalletVersion)
    (template : Text) (keys : List K) (change : Bool) : Prop :=
  (∃ rounds, (Rust.getDescriptor toString template keys change rounds).isSome) ∧
    ∀ rounds desc, Rust.getDescriptor toString template keys change rounds = some (.ok desc) →
      Python.getDescriptor unicode.isDecimal version template (keys.map toString) (some change) = desc

/-- The text that both clients have before the last pass. -/
def openedText (template : Text) (keysInfo : List Text) (change : Bool) : Text :=
  replaceAll ['/', '*', '*'] (branchPath change) (insertKeys keysInfo template)

/-- The descriptor of a policy that has no `/<` once its keys are inserted, or that is well written. -/
inductive Expands (version : WalletVersion) (change : Bool) : Text → List Text → Text → Prop
  | noMultipath {template : Text} {keysInfo : List Text}
      (h : ¬['/', '<'] <:+: openedText template keysInfo change) :
      Expands version change template keysInfo (openedText template keysInfo change)
  | wellWritten {template : List Piece} {keys : List (List Piece)} (h : WellWritten version template keys) :
      Expands version change (template.flatMap Piece.text) (keys.map (·.flatMap Piece.text))
        (expandedText template keys change)

theorem isPrefixOf_of_noMultipath {s t : Text} (h : ¬['/', '<'] <:+: s) (ht : t <:+ s) :
    ['/', '<'].isPrefixOf t = false := by
  rw [← Bool.not_eq_true, isPrefixOf_iff_prefix]
  exact fun hbegins => h (hbegins.isInfix.trans ht.isInfix)

theorem rewrite_matchMultipath_noMultipath {s : Text} (h : ¬['/', '<'] <:+: s) (isDecimal : Char → Bool)
    (change : Bool) : rewrite (Python.matchMultipath isDecimal change) 0 s = s := by
  apply rewrite_eq_self
  intro t ht
  have hopen := isPrefixOf_of_noMultipath h ht
  unfold Python.matchMultipath
  split
  · simp [isPrefixOf] at hopen
  · rfl

/-- What the two clients make of the policy. -/
theorem Expands.getDescriptor_eq {K : Type} {toString : K → Text} {version : WalletVersion} {change : Bool}
    {template desc : Text} {keysInfo : List K} (h : Expands version change template (keysInfo.map toString) desc)
    (unicode : Unicode) :
    (∃ rounds, Rust.getDescriptor toString template keysInfo change rounds = some (.ok desc)) ∧
      Python.getDescriptor unicode.isDecimal version template (keysInfo.map toString) (some change) = desc := by
  generalize hinfos : keysInfo.map toString = infos at h ⊢
  cases h with
  | noMultipath h =>
    refine ⟨⟨1, ?_⟩, ?_⟩
    · have hopen := position_eq_none fun t ht => isPrefixOf_of_noMultipath h ht
      rw [Rust.getDescriptor, hinfos]
      show Rust.chooseBranches change 1 (openedText template infos change) = _
      rw [Rust.chooseBranches, hopen]
    · rw [Python.getDescriptor]
      split_ifs
      · exact rewrite_matchMultipath_noMultipath h _ _
      · rfl
  | @wellWritten template keys h =>
    have hvalid := h.substitute_valid
    constructor
    · refine ⟨(template.flatMap (Piece.substitute keys)).length + 1, ?_⟩
      rw [Rust.getDescriptor, hinfos, insertKeys_eq h, replaceAll_wildcard hvalid]
      exact chooseBranches_opened hvalid change (Nat.lt_succ_self _) [] (by simp)
    · rw [Python.getDescriptor, insertKeys_eq h]
      simp only [replaceAll_wildcard hvalid]
      split_ifs with hversion
      · exact rewrite_matchMultipath hvalid change unicode
      · apply flatMap_congr
        intro t ht
        cases t with
        | multipath m n => exact absurd (hvalid _ ht).1 hversion
        | _ => rfl

theorem descriptors_agree {K : Type} (toString : K → Text) (unicode : Unicode) {version : WalletVersion}
    {change : Bool} {template desc : Text} {keysInfo : List K}
    (h : Expands version change template (keysInfo.map toString) desc) :
    DescriptorsAgree toString unicode version template keysInfo change ∧
      ∃ rounds, Rust.getDescriptor toString template keysInfo change rounds = some (.ok desc) := by
  obtain ⟨⟨rounds, hrust⟩, hpython⟩ := h.getDescriptor_eq unicode
  refine ⟨⟨⟨rounds, by rw [hrust]; rfl⟩, fun more desc' hok => ?_⟩, rounds, hrust⟩
  have hmax := chooseBranches_mono hrust (Nat.le_max_left _ more)
  rw [chooseBranches_mono hok (Nat.le_max_right _ _)] at hmax
  rw [hpython]
  cases hmax
  rfl

def asciiDigits : Unicode where
  isDecimal := Char.isDigit
  isDecimal_of_isDigit _ h := h
  not_isDecimal := forall_mem_cons.mpr ⟨rfl, forall_mem_singleton.mpr rfl⟩

/-- The policy `pk(@0/<0;1>/*)` with one key, and a text that is no policy. -/
theorem descriptors_agree_multipath :
    DescriptorsAgree id asciiDigits .v2 "pk(@0/<0;1>/*)".toList ["tpub".toList] true ∧
      DescriptorsAgree (id : Text → Text) asciiDigits .v2 ">@1/**<".toList [] true := by
  constructor
  · have hpolicy : WellWritten .v2
        [.char 'p', .char 'k', .char '(', .key 0, .multipath ['0'] ['1'], .star, .char ')']
        [[.char 't', .char 'p', .char 'u', .char 'b']] :=
      ⟨by simp [Piece.Valid, Piece.IsNumber], by simp [Piece.Valid], by simp [Piece.Separates]⟩
    exact (descriptors_agree id asciiDigits (.wellWritten hpolicy)).1
  · exact (descriptors_agree id asciiDigits (.noMultipath (by decide))).1

/-- A `/<` without a `>`. -/
theorem not_descriptorsAgree_open : ¬DescriptorsAgree (id : Text → Text) asciiDigits .v2 ['/', '<'] [] false := by
  rintro ⟨⟨rounds, hsome⟩, -⟩
  have hnone (rounds : Nat) : Rust.getDescriptor id ['/', '<'] [] false rounds = none := by
    induction rounds with
    | zero => rfl
    | succ rounds ih => exact ih
  rw [hnone] at hsome
  cases hsome

end LedgerBabylon
