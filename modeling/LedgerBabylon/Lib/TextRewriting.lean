import Mathlib.Data.List.Basic

/-!
# Replacing parts of texts

Matches are replaced from left to right, and the search goes on behind each of them. If a text is
written with tokens, and a match can only begin where a token is that it covers, then the tokens are
replaced one by one.
-/

namespace TextRewriting

open List

variable {α T : Type} {find : List α → Option (List α × Nat)} {p : List α → Bool}

variable {c : α} {a rest : List α}

/-- Replaces every match by what `find` gives for it, along with its length, after skipping a number of
characters. -/
def rewrite (find : List α → Option (List α × Nat)) : Nat → List α → List α
  | _, [] => []
  | skip + 1, _ :: s => rewrite find skip s
  | 0, c :: s =>
    match find (c :: s) with
    | some (replacement, n) => replacement ++ rewrite find (n - 1) s
    | none => c :: rewrite find 0 s

def position (p : List α → Bool) : List α → Option Nat
  | [] => if p [] then some 0 else none
  | c :: s => if p (c :: s) then some 0 else (position p s).map (· + 1)

def Stays (p : List α → Bool) (a rest : List α) : Prop := ∀ v, v ≠ [] → v <:+ a → p (v ++ rest) = false

theorem Stays.nil (rest : List α) : Stays p [] rest := fun _ hne hsuffix => absurd (suffix_nil.mp hsuffix) hne

theorem Stays.cons (hc : p (c :: (a ++ rest)) = false) (ha : Stays p a rest) : Stays p (c :: a) rest := by
  intro v hne hsuffix
  rcases suffix_cons_iff.mp hsuffix with rfl | hsuffix
  · exact hc
  · exact ha v hne hsuffix

theorem Stays.of_cons (h : Stays p (c :: a) rest) : p (c :: (a ++ rest)) = false ∧ Stays p a rest :=
  ⟨h (c :: a) (cons_ne_nil _ _) (suffix_refl _),
    fun v hne hsuffix => h v hne (hsuffix.trans (suffix_cons c a))⟩

/-- No match begins with a character of `a`. -/
theorem Stays.of_forall (h : ∀ c ∈ a, ∀ s, p (c :: s) = false) (rest : List α) : Stays p a rest := by
  induction a with
  | nil => exact .nil rest
  | cons c a ih =>
    exact .cons (h c mem_cons_self _) (ih fun d hd => h d (mem_cons_of_mem c hd))

theorem rewrite_skip (a rest : List α) : rewrite find a.length (a ++ rest) = rewrite find 0 rest := by
  induction a with
  | nil => rfl
  | cons c a ih => exact ih

theorem rewrite_append (h : Stays (fun s => (find s).isSome) a rest) :
    rewrite find 0 (a ++ rest) = a ++ rewrite find 0 rest := by
  induction a with
  | nil => rfl
  | cons c a ih =>
    obtain ⟨hc, ha⟩ := h.of_cons
    rw [cons_append, rewrite, Option.isSome_eq_false_iff.mp hc |> Option.isNone_iff_eq_none.mp]
    exact congrArg (c :: ·) (ih ha)

theorem rewrite_match {replacement : List α} (hne : a ≠ [])
    (h : find (a ++ rest) = some (replacement, a.length)) :
    rewrite find 0 (a ++ rest) = replacement ++ rewrite find 0 rest := by
  obtain ⟨c, a, rfl⟩ := exists_cons_of_ne_nil hne
  rw [cons_append] at h ⊢
  rw [rewrite, h]
  exact congrArg (replacement ++ ·) (rewrite_skip a rest)

/-- Every token is a match, or no match begins in it. -/
theorem rewrite_flatMap {text text' : T → List α} {tokens : List T} (h : ∀ t rest, t :: rest <:+ tokens →
      text t ≠ [] ∧ find (text t ++ rest.flatMap text) = some (text' t, (text t).length) ∨
      text' t = text t ∧ Stays (fun s => (find s).isSome) (text t) (rest.flatMap text)) :
    rewrite find 0 (tokens.flatMap text) = tokens.flatMap text' := by
  induction tokens with
  | nil => rfl
  | cons t tokens ih =>
    have hrest := ih fun u rest hsuffix => h u rest (hsuffix.trans (suffix_cons t tokens))
    rw [flatMap_cons, flatMap_cons, ← hrest]
    rcases h t tokens (suffix_refl _) with ⟨hne, hfind⟩ | ⟨heq, hstays⟩
    · exact rewrite_match hne hfind
    · rw [heq]
      exact rewrite_append hstays

theorem position_append (h : Stays p a rest) :
    position p (a ++ rest) = (position p rest).map (· + a.length) := by
  induction a with
  | nil => simp
  | cons c a ih =>
    obtain ⟨hc, ha⟩ := h.of_cons
    rw [cons_append, position, hc, if_neg Bool.false_ne_true, ih ha, Option.map_map, length_cons]
    rfl

theorem rewrite_eq_self {s : List α} (h : ∀ t, t <:+ s → find t = none) : rewrite find 0 s = s := by
  induction s with
  | nil => rfl
  | cons c s ih =>
    rw [rewrite, h _ (suffix_refl _), ih fun t ht => h t (ht.trans (suffix_cons c s))]

theorem position_eq_none {s : List α} (h : ∀ t, t <:+ s → p t = false) : position p s = none := by
  induction s with
  | nil => rw [position, h [] (suffix_refl _), if_neg Bool.false_ne_true]
  | cons c s ih =>
    rw [position, h _ (suffix_refl _), if_neg Bool.false_ne_true,
      ih fun t ht => h t (ht.trans (suffix_cons c s))]
    rfl

end TextRewriting
