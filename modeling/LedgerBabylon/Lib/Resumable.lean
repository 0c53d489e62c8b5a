import Mathlib.Order.Nat
import Mathlib.Tactic.Common

/-!
# Parsers that are fed piece by piece

A step reads from its input and ends done, in error, or waiting for more, with a state and the input it
left unread. It is stable if stopping at the end of a piece and resuming with the unread rest and the
next piece is the same as running on both at once. All ways to combine steps keep stability, and a
stable parser gives the same result for every way of cutting its input.
-/

namespace Resumable

open List

variable {n k : Nat} {α β σ τ : Type}

inductive Status where
  | done
  | more
  | error
  deriving DecidableEq, Repr

abbrev Step (α σ : Type) := σ → List α → Status × σ × List α

def resume (p : Step α σ) (b : List α) : Status × σ × List α → Status × σ × List α
  | (.more, s, rest) => p s (rest ++ b)
  | (.done, s, rest) => (.done, s, rest ++ b)
  | (.error, s, rest) => (.error, s, rest ++ b)

/-- The step can be stopped at the end of any piece of its input; it never adds to its input. -/
structure Stable (p : Step α σ) : Prop where
  resume_eq : ∀ s a b, p s (a ++ b) = resume p b (p s a)
  length_le : ∀ s a, (p s a).2.2.length ≤ a.length

/-- Whenever the step waits, it leaves at most `n` items unread, or it waits forever. -/
def Bounded (n : Nat) (p : Step α σ) : Prop :=
  ∀ s a s' rest, p s a = (.more, s', rest) → rest.length ≤ n ∨ ∀ b, (p s' b).1 = .more

structure Resumes (n : Nat) (p : Step α σ) : Prop extends Stable p where
  bounded : Bounded n p

def ofReader (r : σ → List α → Option (β × List α)) (f : σ → β → Bool × σ) : Step α σ := fun s a =>
  match r s a with
  | none => (.more, s, a)
  | some (x, rest) => (if (f s x).1 then .done else .error, (f s x).2, rest)

def reading (r : List α → Option (β × List α)) (f : σ → β → σ) : Step α σ :=
  ofReader (fun _ => r) fun s x => (true, f s x)

structure Local (r : List α → Option (β × List α)) : Prop where
  append : ∀ a b x rest, r a = some (x, rest) → r (a ++ b) = some (x, rest ++ b)
  length_le : ∀ a x rest, r a = some (x, rest) → rest.length ≤ a.length

def Needs (n : Nat) (r : List α → Option (β × List α)) : Prop :=
  ∀ a, r a = none → a.length ≤ n ∨ ∀ b, r b = none

structure Draws (n : Nat) (r : List α → Option (β × List α)) : Prop extends Local r where
  needs : Needs n r

variable {s s' s1 s2 : σ} {a b rest : List α} {x : β} {p q : Step α σ} {steps ps : List (Step α σ)}
  {r : List α → Option (β × List α)} {f : σ → β → σ}

section

variable {r : σ → List α → Option (β × List α)} {f : σ → β → Bool × σ}

theorem ofReader_more (h : ofReader r f s a = (.more, s', rest)) : r s a = none ∧ s = s' ∧ a = rest := by
  cases hread : r s a with
  | none => simpa [ofReader, hread] using h
  | some y =>
    simp only [ofReader, hread, Prod.mk.injEq] at h
    split_ifs at h <;> simp at h

theorem resumes_ofReader (hr : ∀ s, Draws n (r s)) : Resumes n (ofReader r f) where
  resume_eq s a b := by
    cases h : r s a with
    | none => simp [ofReader, h, resume]
    | some y =>
      obtain ⟨x, rest⟩ := y
      simp only [ofReader, h, (hr s).append a b x rest h]
      cases (f s x).1 <;> rfl
  length_le s a := by
    cases h : r s a with
    | none => simp [ofReader, h]
    | some y => simpa [ofReader, h] using (hr s).length_le a y.1 y.2 h
  bounded s a s' rest h := by
    obtain ⟨hnone, rfl, rfl⟩ := ofReader_more h
    exact ((hr s).needs a hnone).imp id fun hstuck b => by simp [ofReader, hstuck b]

end

def Reads (p : Step α σ) : Prop := ∀ s a, (p s a).1 ≠ .more → (p s a).2.2.length < a.length

theorem reads_reading (hr : ∀ a x rest, r a = some (x, rest) → rest.length < a.length) : Reads (reading r f) := by
  intro s a h
  cases hread : r a with
  | none => simp [reading, ofReader, hread] at h
  | some y => simpa [reading, ofReader, hread] using hr a y.1 y.2 hread

theorem resumes_reading (hr : Draws n r) : Resumes n (reading r f) := resumes_ofReader fun _ => hr

theorem reading_eq (h : r a = some (x, rest)) : reading r f s a = (.done, f s x, rest) := by
  simp [reading, ofReader, h]

def Frame (g : σ → τ) (p : Step α σ) : Prop := ∀ s a, g (p s a).2.1 = g s

def KeepsCond (cond : σ → Bool) (p : Step α σ) : Prop :=
  ∀ s a s' rest, cond s → p s a = (.more, s', rest) → cond s'

variable {g : σ → τ}

theorem Frame.keepsCond (hp : Frame g p) {cond : σ → Bool} {c : τ → Bool} (hcond : ∀ s, cond s = c (g s)) : KeepsCond cond p := by
  intro s a s' rest hs h
  have hg := hp s a
  rw [h] at hg
  rw [hcond] at hs ⊢
  rwa [hg]

theorem frame_ofReader {r : σ → List α → Option (β × List α)} {f : σ → β → Bool × σ}
    (hf : ∀ s x, g (f s x).2 = g s) : Frame g (ofReader r f) := by
  intro s a
  cases h : r s a with
  | none => simp [ofReader, h]
  | some y => simpa [ofReader, h] using hf s y.1

theorem keepsCond_ofReader {cond : σ → Bool} {r : σ → List α → Option (β × List α)}
    {f : σ → β → Bool × σ} : KeepsCond cond (ofReader r f) := by
  intro s a s' rest hs h
  obtain ⟨-, rfl, -⟩ := ofReader_more h
  exact hs

def skipIf (flag : σ → Bool) (p : Step α σ) : Step α σ := fun s a =>
  if flag s then (.done, s, a) else p s a

section SkipIf

variable {flag : σ → Bool}

theorem skipIf_of_flag (hflag : flag s) (a : List α) : skipIf flag p s a = (.done, s, a) := by
  simp [skipIf, hflag]

theorem skipIf_of_not_flag (hflag : flag s = false) (a : List α) : skipIf flag p s a = p s a := by
  simp [skipIf, hflag]

theorem resumes_skipIf (hkeeps : KeepsCond (fun s => !flag s) p) (hp : Resumes n p) :
    Resumes n (skipIf flag p) where
  resume_eq s a b := by
    cases hflag : flag s with
    | true => simp [skipIf, hflag, resume]
    | false =>
      rw [skipIf_of_not_flag hflag, skipIf_of_not_flag hflag, hp.resume_eq s a b]
      rcases hpa : p s a with ⟨_ | _ | _, s', rest⟩
      · rfl
      · have hkept : (!flag s') := hkeeps s a s' rest (by simp [hflag]) hpa
        simp only [resume]
        rw [skipIf_of_not_flag (by simpa using hkept)]
      · rfl
  length_le s a := by
    cases hflag : flag s with
    | true => simp [skipIf, hflag]
    | false => simpa [skipIf, hflag] using hp.length_le s a
  bounded s a s' rest h := by
    cases hflag : flag s with
    | true => simp [skipIf, hflag] at h
    | false =>
      rw [skipIf_of_not_flag hflag] at h
      have hkept : (!flag s') := hkeeps s a s' rest (by simp [hflag]) h
      refine (hp.bounded s a s' rest h).imp id fun hstuck b => ?_
      rw [skipIf_of_not_flag (by simpa using hkept)]
      exact hstuck b

theorem frame_skipIf (hp : Frame g p) : Frame g (skipIf flag p) := by
  intro s a
  cases hflag : flag s with
  | true => simp [skipIf, hflag]
  | false => simpa [skipIf, hflag] using hp s a

end SkipIf

def on (get : τ → σ) (set : τ → σ → τ) (p : τ → Step α σ) : Step α τ := fun t a =>
  let r := p t (get t) a
  (r.1, set t r.2.1, r.2.2)

section On

variable {get : τ → σ} {set : τ → σ → τ} {p : τ → Step α σ}

theorem resumes_on (hget : ∀ t s, get (set t s) = s) (hset : ∀ t s s', set (set t s) s' = set t s')
    (hp : ∀ t s, p (set t s) = p t) (hresumes : ∀ t, Resumes n (p t)) : Resumes n (on get set p) where
  resume_eq t a b := by
    simp only [on, (hresumes t).resume_eq (get t) a b]
    rcases p t (get t) a with ⟨_ | _ | _, s', rest⟩
    · rfl
    · simp [resume, on, hget, hset, hp]
    · rfl
  length_le t a := (hresumes t).length_le (get t) a
  bounded t a t' rest h := by
    simp only [on, Prod.mk.injEq] at h
    obtain ⟨hmore, rfl, rfl⟩ := h
    refine ((hresumes t).bounded (get t) a (p t (get t) a).2.1 _ (by rw [← hmore])).imp id fun hstuck b => ?_
    simp only [on, hget, hp]
    exact hstuck b

theorem frame_on {γ : Type} {g : τ → γ} (hg : ∀ t s, g (set t s) = g t) : Frame g (on get set p) :=
  fun t _ => hg t _

end On

def ignoreError (p : Step α σ) : Step α σ := fun s a =>
  match p s a with
  | (.more, s', rest) => (.more, s', rest)
  | (_, s', rest) => (.done, s', rest)

theorem resumes_ignoreError (hp : Resumes n p) : Resumes n (ignoreError p) where
  resume_eq s a b := by
    simp only [ignoreError, hp.resume_eq s a b]
    rcases p s a with ⟨_ | _ | _, s', rest⟩ <;> rfl
  length_le s a := by
    have hle := hp.length_le s a
    rcases hpa : p s a with ⟨_ | _ | _, s', rest⟩ <;> simp_all [ignoreError]
  bounded s a s' rest h := by
    rcases hpa : p s a with ⟨_ | _ | _, s1, rest1⟩ <;> simp [ignoreError, hpa] at h
    obtain ⟨rfl, rfl⟩ := h
    refine (hp.bounded s a s1 rest1 hpa).imp id fun hstuck b => ?_
    have := hstuck b
    rcases hb : p s1 b with ⟨_ | _ | _, s2, rest2⟩ <;> simp_all [ignoreError]

theorem frame_ignoreError (hp : Frame g p) : Frame g (ignoreError p) := by
  intro s a
  have hg := hp s a
  rcases hpa : p s a with ⟨_ | _ | _, s', rest⟩ <;> simp_all [ignoreError]

theorem reads_ignoreError (hp : (p s a).1 ≠ .more → (p s a).2.2.length < a.length)
    (h : (ignoreError p s a).1 ≠ .more) : (ignoreError p s a).2.2.length < a.length := by
  rcases hpa : p s a with ⟨_ | _ | _, s', rest⟩ <;> simp_all [ignoreError]

def runFrom : List (Step α σ) → Step α (Nat × σ)
  | [] => fun ks a => (.done, ks, a)
  | p :: ps => fun ks a =>
    match p ks.2 a with
    | (.done, s', rest) => runFrom ps (ks.1 + 1, s') rest
    | (st, s', rest) => (st, (ks.1, s'), rest)

def run (steps : List (Step α σ)) : Step α (Nat × σ) := fun ks a =>
  runFrom (steps.drop ks.1) ks a

theorem run_finished (hk : steps.length ≤ k) (s : σ)
    (a : List α) : run steps (k, s) a = (.done, (k, s), a) := by
  simp [run, drop_eq_nil_of_le hk, runFrom]

theorem runFrom_resume (hsteps : ∀ p ∈ steps, Stable p) (hps : steps.drop k = ps) (s : σ)
    (a b : List α) : runFrom ps (k, s) (a ++ b) = resume (run steps) b (runFrom ps (k, s) a) := by
  induction ps generalizing k s a with
  | nil => simp [runFrom, resume]
  | cons p ps ih =>
    have hstable : Stable p := by
      apply hsteps p
      exact mem_of_mem_drop (hps ▸ mem_cons_self)
    have hdrop : steps.drop (k + 1) = ps := by
      rw [← tail_drop, hps, tail_cons]
    simp only [runFrom, hstable.resume_eq s a b]
    rcases p s a with ⟨_ | _ | _, s', rest⟩
    · simpa [resume] using ih hdrop s' rest
    · simp [resume, run, hps, runFrom]
    · rfl

theorem runFrom_length_le (hps : ∀ p ∈ ps, Stable p) (ks : Nat × σ)
    (a : List α) : (runFrom ps ks a).2.2.length ≤ a.length := by
  induction ps generalizing ks a with
  | nil => simp [runFrom]
  | cons p ps ih =>
    rw [forall_mem_cons] at hps
    have hle := hps.1.length_le ks.2 a
    rcases hpa : p ks.2 a with ⟨_ | _ | _, s', rest⟩ <;> simp only [runFrom, hpa] at hle ⊢
    · exact (ih hps.2 (ks.1 + 1, s') rest).trans hle
    · exact hle
    · exact hle

theorem reads_run_zero (hp : Reads p) (hps : ∀ q ∈ ps, Stable q) (s : σ) (a : List α) (h : (run (p :: ps) (0, s) a).1 ≠ .more) :
    (run (p :: ps) (0, s) a).2.2.length < a.length := by
  have hlt := hp s a
  simp only [run, drop_zero, runFrom] at h ⊢
  rcases hpa : p s a with ⟨_ | _ | _, s', rest⟩ <;> simp only [hpa] at h hlt ⊢
  · exact (runFrom_length_le hps (0 + 1, s') rest).trans_lt (hlt (by simp))
  · simp at h
  · exact hlt (by simp)

theorem resumes_run (hsteps : ∀ p ∈ steps, Resumes n p) : Resumes n (run steps) where
  resume_eq ks a b := runFrom_resume (fun p hp => (hsteps p hp).toStable) rfl ks.2 a b
  length_le ks a := runFrom_length_le (fun p hp => (hsteps p (mem_of_mem_drop hp)).toStable) ks a
  bounded := by
    suffices h : ∀ (ps : List (Step α σ)) (k : Nat) (s : σ) (a : List α) (ks' : Nat × σ)
        (rest : List α), steps.drop k = ps → runFrom ps (k, s) a = (.more, ks', rest) →
        rest.length ≤ n ∨ ∀ b, (run steps ks' b).1 = .more by
      intro ks a ks' rest hrun
      exact h _ ks.1 ks.2 a ks' rest rfl hrun
    intro ps
    induction ps with
    | nil => simp [runFrom]
    | cons p ps ih =>
      intro k s a ks' rest hps hrun
      have hdrop : steps.drop (k + 1) = ps := by
        rw [← tail_drop, hps, tail_cons]
      rcases hpa : p s a with ⟨_ | _ | _, s', rest'⟩ <;>
        simp only [runFrom, hpa, Prod.mk.injEq, true_and, reduceCtorEq, false_and] at hrun
      · exact ih (k + 1) s' rest' ks' rest hdrop hrun
      · obtain ⟨rfl, rfl⟩ := hrun
        have hmem : p ∈ steps := mem_of_mem_drop (hps ▸ mem_cons_self)
        refine ((hsteps p hmem).bounded s a s' rest' hpa).imp id fun hstuck b => ?_
        have := hstuck b
        rcases hb : p s' b with ⟨_ | _ | _, s2, rest2⟩ <;> simp_all [run, runFrom]

def andThen (p q : Step α σ) : Step α σ := fun s a =>
  match p s a with
  | (.done, s', rest) => q s' rest
  | r => r

def Skips (p q : Step α σ) : Prop :=
  ∀ s a s' rest s'' rest', p s a = (.done, s', rest) → q s' rest = (.more, s'', rest') →
    ∀ x, p s'' x = (.done, s'', x)

theorem resumes_andThen (hp : Resumes n p) (hq : Resumes n q) (hskips : Skips p q) :
    Resumes n (andThen p q) where
  resume_eq s a b := by
    simp only [andThen, hp.resume_eq s a b]
    rcases hpa : p s a with ⟨_ | _ | _, s', rest⟩
    · simp only [resume, hq.resume_eq s' rest b]
      rcases hqa : q s' rest with ⟨_ | _ | _, s'', rest'⟩
      · rfl
      · simp [andThen, hskips s a s' rest s'' rest' hpa hqa]
      · rfl
    · rfl
    · rfl
  length_le s a := by
    have hle := hp.length_le s a
    rcases hpa : p s a with ⟨_ | _ | _, s', rest⟩ <;> simp only [andThen, hpa] at hle ⊢
    · exact (hq.length_le s' rest).trans hle
    · exact hle
    · exact hle
  bounded s a s' rest h := by
    rcases hpa : p s a with ⟨_ | _ | _, s1, rest1⟩ <;>
      simp only [andThen, hpa, Prod.mk.injEq, true_and, reduceCtorEq, false_and] at h
    · refine (hq.bounded s1 rest1 s' rest h).imp id fun hstuck b => ?_
      simp only [andThen, hskips s a s1 rest1 s' rest hpa h b]
      exact hstuck b
    · obtain ⟨rfl, rfl⟩ := h
      refine (hp.bounded s a s1 rest1 hpa).imp id fun hstuck b => ?_
      have := hstuck b
      rcases hb : p s1 b with ⟨_ | _ | _, s2, rest2⟩ <;> simp_all [andThen]

theorem skips_of_flag {flag : σ → Bool}
    (hp : ∀ s a s' rest, p s a = (.done, s', rest) → flag s') (hq : Frame flag q) :
    Skips (skipIf flag p) q := by
  intro s a s' rest s'' rest' hps hqs x
  have hset : flag s' := by
    cases hflag : flag s with
    | true =>
      simp only [skipIf, hflag, if_true, Prod.mk.injEq, true_and] at hps
      rw [← hps.1, hflag]
    | false =>
      rw [skipIf_of_not_flag hflag] at hps
      exact hp s a s' rest hps
  have hframe := hq s' rest
  rw [hqs] at hframe
  exact skipIf_of_flag (hframe.trans hset) x

theorem frame_andThen (hp : Frame g p) (hq : Frame g q) : Frame g (andThen p q) := by
  intro s a
  have hg := hp s a
  rcases hpa : p s a with ⟨_ | _ | _, s', rest⟩ <;> simp only [andThen, hpa] at hg ⊢
  · exact (hq s' rest).trans hg
  · exact hg
  · exact hg

def always (f : σ → σ) : Step α σ := fun s a => (.done, f s, a)

theorem resumes_always (f : σ → σ) : Resumes n (always f : Step α σ) where
  resume_eq _ _ _ := rfl
  length_le _ _ := le_rfl
  bounded s a s' rest h := by simp [always] at h

theorem skips_always (p : Step α σ) (f : σ → σ) : Skips p (always f) := by
  intro s a s' rest s'' rest' _ h
  simp [always] at h

theorem frame_always {f : σ → σ} (hf : ∀ s, g (f s) = g s) : Frame g (always f : Step α σ) := fun s _ => hf s

theorem keepsCond_andThen_always {cond : σ → Bool} {f : σ → σ} (hp : KeepsCond cond p) :
    KeepsCond cond (andThen p (always f)) := by
  intro s a s' rest hs h
  rcases hpa : p s a with ⟨_ | _ | _, s1, rest1⟩ <;> simp only [andThen, hpa, always] at h
  · simp at h
  · simp only [Prod.mk.injEq, true_and] at h
    rw [← h.1]
    exact hp s a s1 rest1 hs hpa
  · simp at h

def doWhileN (cond : σ → Bool) (body : Step α σ) : Nat → Step α σ
  | 0 => fun s a => (.more, s, a)
  | n + 1 => fun s a =>
    match body s a with
    | (.done, s', rest) => if cond s' then doWhileN cond body n s' rest else (.done, s', rest)
    | r => r

/-- Repeat the body while the condition holds after it; `size` bounds the number of rounds. -/
def doWhile (size : σ → List α → Nat) (cond : σ → Bool) (body : Step α σ) : Step α σ := fun s a =>
  doWhileN cond body (size s a + 1) s a

def Progress (size : σ → List α → Nat) (cond : σ → Bool) (body : Step α σ) : Prop :=
  ∀ s a s' rest, body s a = (.done, s', rest) → cond s' → size s' rest < size s a

theorem progress_andThen_always {cond begun : σ → Bool} {f : σ → σ} (hp : Stable p)
    (hreads : ∀ s a, begun s = false → (p s a).1 ≠ .more → (p s a).2.2.length < a.length)
    (hreset : ∀ s, begun (f s) = false) :
    Progress (fun s a => 2 * a.length + (begun s).toNat) cond (andThen p (always f)) := by
  intro s a s' rest h _
  have hle := hp.length_le s a
  have hlt := hreads s a
  rcases hpa : p s a with ⟨_ | _ | _, s1, rest1⟩ <;>
    simp only [hpa, andThen, always, Prod.mk.injEq, true_and] at h hle hlt
  · obtain ⟨rfl, rfl⟩ := h
    simp only [hreset, Bool.toNat_false]
    cases hbegun : begun s with
    | true => rw [Bool.toNat_true]; omega
    | false =>
      have := hlt hbegun (by simp)
      omega
  · simp at h
  · simp at h

section Loops

variable {size : σ → List α → Nat} {cond : σ → Bool} {body : Step α σ}

theorem doWhileN_fuel (hprogress : Progress size cond body) {m : Nat} (hn : size s a < n) (hm : size s a < m) :
    doWhileN cond body n s a = doWhileN cond body m s a := by
  induction n generalizing m s a with
  | zero => omega
  | succ n ih =>
    cases m with
    | zero => omega
    | succ m =>
      simp only [doWhileN]
      rcases hbody : body s a with ⟨_ | _ | _, s', rest⟩
      · by_cases hcond : cond s'
        · have hlt := hprogress s a s' rest hbody hcond
          simp only [hcond, if_true]
          exact ih (by omega) (by omega)
        · simp [hcond]
      · rfl
      · rfl

theorem doWhile_eq (hprogress : Progress size cond body) (s : σ) (a : List α) :
    doWhile size cond body s a = match body s a with
      | (.done, s', rest) => if cond s' then doWhile size cond body s' rest else (.done, s', rest)
      | r => r := by
  rcases hbody : body s a with ⟨_ | _ | _, s', rest⟩ <;> simp only [doWhile, doWhileN, hbody]
  · by_cases hcond : cond s'
    · have hlt := hprogress s a s' rest hbody hcond
      simp only [hcond, if_true]
      exact doWhileN_fuel hprogress hlt (Nat.lt_succ_self _)
    · simp [hcond]

theorem doWhile_more (hprogress : Progress size cond body)
    (h : doWhile size cond body s a = (.more, s', rest)) :
    ∃ s0 a0, body s0 a0 = (.more, s', rest) ∧ (s0 = s ∨ cond s0) := by
  induction hlen : size s a using Nat.strongRecOn generalizing s a with
  | ind n ih =>
    rw [doWhile_eq hprogress] at h
    rcases hrun : body s a with ⟨_ | _ | _, s1, rest1⟩
    · by_cases hcond : cond s1
      · have hlt := hprogress s a s1 rest1 hrun hcond
        simp only [hrun, hcond, if_true] at h
        obtain ⟨s0, a0, hmore, hs0⟩ := ih (size s1 rest1) (by omega) h rfl
        refine ⟨s0, a0, hmore, Or.inr ?_⟩
        rcases hs0 with rfl | hs0
        · exact hcond
        · exact hs0
      · simp [hrun, hcond] at h
    · rw [hrun] at h
      exact ⟨s, a, hrun.trans h, Or.inl rfl⟩
    · simp [hrun] at h

theorem resumes_doWhile (hprogress : Progress size cond body) (hbody : Resumes n body) :
    Resumes n (doWhile size cond body) where
  resume_eq s a b := by
    induction hlen : size s a using Nat.strongRecOn generalizing s a with
    | ind n ih =>
      rw [doWhile_eq hprogress s (a ++ b), doWhile_eq hprogress s a, hbody.resume_eq s a b]
      rcases hrun : body s a with ⟨_ | _ | _, s', rest⟩
      · by_cases hcond : cond s'
        · have hlt := hprogress s a s' rest hrun hcond
          simp only [resume, hcond, if_true]
          exact ih (size s' rest) (by omega) s' rest rfl
        · simp [resume, hcond]
      · simp only [resume]
        rw [doWhile_eq hprogress s' (rest ++ b)]
      · rfl
  length_le s a := by
    induction hlen : size s a using Nat.strongRecOn generalizing s a with
    | ind n ih =>
      have hle := hbody.length_le s a
      rw [doWhile_eq hprogress]
      rcases hrun : body s a with ⟨_ | _ | _, s', rest⟩ <;> simp only [hrun] at hle ⊢
      · by_cases hcond : cond s'
        · have hlt := hprogress s a s' rest hrun hcond
          simp only [hcond, if_true]
          exact (ih (size s' rest) (by omega) s' rest rfl).trans hle
        · simpa [hcond] using hle
      · exact hle
      · exact hle
  bounded s a s' rest h := by
    obtain ⟨s0, a0, hmore, -⟩ := doWhile_more hprogress h
    refine (hbody.bounded s0 a0 s' rest hmore).imp id fun hstuck b => ?_
    have := hstuck b
    rw [doWhile_eq hprogress]
    rcases hb : body s' b with ⟨_ | _ | _, s2, rest2⟩ <;> simp_all

theorem frame_doWhile (hbody : Frame g body) : Frame g (doWhile size cond body) := by
  suffices h : ∀ n, Frame g (doWhileN cond body n) from fun s a => h _ s a
  intro n
  induction n with
  | zero => exact fun _ _ => rfl
  | succ n ih =>
    intro s a
    have hg := hbody s a
    rcases hrun : body s a with ⟨_ | _ | _, s', rest⟩ <;> simp only [doWhileN, hrun] at hg ⊢
    · split_ifs
      · exact (ih s' rest).trans hg
      · exact hg
    · exact hg
    · exact hg

def loop (size : σ → List α → Nat) (cond : σ → Bool) (body : Step α σ) : Step α σ := fun s a =>
  if cond s then doWhile size cond body s a else (.done, s, a)

theorem loop_eq (hprogress : Progress size cond body) (s : σ) (a : List α) :
    loop size cond body s a = if cond s then
        match body s a with
        | (.done, s', rest) => loop size cond body s' rest
        | r => r
      else (.done, s, a) := by
  simp only [loop, doWhile_eq hprogress s a]

theorem loop_more (hprogress : Progress size cond body) (hkeeps : KeepsCond cond body)
    (h : loop size cond body s a = (.more, s', rest)) :
    cond s' ∧ ∃ s0 a0, body s0 a0 = (.more, s', rest) := by
  simp only [loop] at h
  split_ifs at h with hcond
  · obtain ⟨s0, a0, hmore, hs0⟩ := doWhile_more hprogress h
    refine ⟨hkeeps s0 a0 s' rest ?_ hmore, s0, a0, hmore⟩
    rcases hs0 with rfl | hs0
    · exact hcond
    · exact hs0
  · simp at h

theorem resumes_loop (hprogress : Progress size cond body) (hkeeps : KeepsCond cond body)
    (hbody : Resumes n body) : Resumes n (loop size cond body) where
  resume_eq s a b := by
    by_cases hcond : cond s
    · have hstable := (resumes_doWhile hprogress hbody).resume_eq s a b
      rcases hrun : doWhile size cond body s a with ⟨_ | _ | _, s', rest⟩
      · simp [loop, hcond, hstable, hrun, resume]
      · have hmore : loop size cond body s a = (.more, s', rest) := by simp [loop, hcond, hrun]
        have hkept := (loop_more hprogress hkeeps hmore).1
        simp [loop, hcond, hstable, hrun, resume, hkept]
      · simp [loop, hcond, hstable, hrun, resume]
    · simp [loop, hcond, resume]
  length_le s a := by
    simp only [loop]
    split_ifs
    · exact (resumes_doWhile hprogress hbody).length_le s a
    · exact le_rfl
  bounded s a s' rest h := by
    obtain ⟨hkept, s0, a0, hmore⟩ := loop_more hprogress hkeeps h
    refine (hbody.bounded s0 a0 s' rest hmore).imp id fun hstuck b => ?_
    have := hstuck b
    rw [loop_eq hprogress]
    rcases hb : body s' b with ⟨_ | _ | _, s2, rest2⟩ <;> simp_all

theorem frame_loop (hbody : Frame g body) : Frame g (loop size cond body) := by
  intro s a
  simp only [loop]
  split_ifs
  · exact frame_doWhile hbody s a
  · rfl

end Loops

def Consumes (p : Step α σ) (s : σ) (a : List α) (s' : σ) : Prop :=
  ∀ rest, p s (a ++ rest) = (.done, s', rest)

theorem Consumes.congr (h : Consumes p s a s') (hab : a = b) : Consumes p s b s' := hab ▸ h

theorem Frame.of_consumes (hp : Frame g p) (h : Consumes p s a s') : g s' = g s := by
  have hg := hp s (a ++ [])
  rwa [h []] at hg

theorem consumes_reading (h : ∀ rest, r (a ++ rest) = some (x, rest)) : Consumes (reading r f) s a (f s x) :=
  fun rest => reading_eq (h rest)

theorem consumes_always (f : σ → σ) (s : σ) : Consumes (always f : Step α σ) s [] (f s) := fun _ => rfl

theorem Consumes.andThen (hp : Consumes p s a s1) (hq : Consumes q s1 b s2) : Consumes (andThen p q) s (a ++ b) s2 := by
  intro rest
  simp only [Resumable.andThen, append_assoc, hp (b ++ rest)]
  exact hq rest

theorem Consumes.ignoreError (hp : Consumes p s a s') : Consumes (ignoreError p) s a s' := by
  intro rest
  simp only [Resumable.ignoreError, hp rest]

theorem Consumes.skipIf {flag : σ → Bool} (hflag : flag s = false) (hp : Consumes p s a s') :
    Consumes (skipIf flag p) s a s' := by
  intro rest
  rw [skipIf_of_not_flag hflag, hp rest]

theorem consumes_skipIf_nil {flag : σ → Bool} (hflag : flag s) :
    Consumes (Resumable.skipIf flag p) s [] s :=
  fun rest => skipIf_of_flag hflag rest

theorem Consumes.on {get : τ → σ} {set : τ → σ → τ} {p : τ → Step α σ} {t : τ}
    (hp : Consumes (p t) (get t) a s') : Consumes (on get set p) t a (set t s') := by
  intro rest
  simp only [Resumable.on, hp rest]

theorem consumes_runFrom_nil (ks : Nat × σ) : Consumes (runFrom ([] : List (Step α σ))) ks [] ks :=
  fun _ => rfl

theorem Consumes.runFrom {ks' : Nat × σ} (hp : Consumes p s a s1)
    (hps : Consumes (runFrom ps) (k + 1, s1) b ks') :
    Consumes (runFrom (p :: ps)) (k, s) (a ++ b) ks' := by
  intro rest
  simp only [Resumable.runFrom, append_assoc, hp (b ++ rest)]
  exact hps rest

theorem Consumes.run {ks' : Nat × σ} (h : Consumes (Resumable.runFrom steps) (0, s) a ks') :
    Consumes (Resumable.run steps) (0, s) a ks' :=
  h

section

variable {size : σ → List α → Nat} {cond : σ → Bool} {body : Step α σ}

theorem consumes_loop_nil (hcond : cond s = false) : Consumes (loop size cond body) s [] s := by
  intro rest
  simp [loop, hcond]

theorem Consumes.loop (hprogress : Progress size cond body) (hcond : cond s) (hbody : Consumes body s a s1)
    (hloop : Consumes (loop size cond body) s1 b s2) :
    Consumes (loop size cond body) s (a ++ b) s2 := by
  intro rest
  rw [loop_eq hprogress, append_assoc, hbody (b ++ rest)]
  simp only [hcond, if_true]
  exact hloop rest

theorem Consumes.doWhile_last (hprogress : Progress size cond body) (hbody : Consumes body s a s') (hcond : cond s' = false) :
    Consumes (doWhile size cond body) s a s' := by
  intro rest
  rw [doWhile_eq hprogress, hbody rest]
  simp [hcond]

theorem Consumes.doWhile (hprogress : Progress size cond body) (hbody : Consumes body s a s1) (hcond : cond s1)
    (hloop : Consumes (doWhile size cond body) s1 b s2) :
    Consumes (doWhile size cond body) s (a ++ b) s2 := by
  intro rest
  rw [doWhile_eq hprogress, append_assoc, hbody (b ++ rest)]
  simp only [hcond, if_true]
  exact hloop rest

end

/-- A parser between two pieces of input: its state, what it left unread, and whether it failed. -/
structure Fed (α σ : Type) where
  state : σ
  store : List α
  failed : Bool

/-- Take a piece of input. Unread input is kept if it fits in `cap` items; otherwise the store stays
as it was. -/
def feed (cap : Nat) (p : Step α σ) (f : Fed α σ) (piece : List α) : Fed α σ :=
  if f.failed then f
  else
    match p f.state (f.store ++ piece) with
    | (.more, s', rest) => ⟨s', if rest.length ≤ cap then rest else f.store, false⟩
    | (.done, s', _) => ⟨s', f.store, false⟩
    | (.error, s', _) => ⟨s', f.store, true⟩

theorem more_again (hp : Stable p) (h : p s a = (.more, s', rest)) : p s' rest = (.more, s', rest) := by
  have hresume := hp.resume_eq s a []
  rw [append_nil, h] at hresume
  simpa [resume] using hresume.symm

/-- **Independence of the pieces.** If the parser is done on the whole input, and stays so, it reaches
that state whatever pieces the input comes in. -/
theorem foldl_feed_done {cap : Nat} (hp : Resumes cap p) {final : σ}
    (hfinal : ∀ x, p final x = (.done, final, x)) {pieces : List (List α)} {f : Fed α σ} (hfailed : f.failed = false)
    (hrun : p f.state (f.store ++ pieces.flatten) = (.done, final, rest))
    (hstart : f.state = final ∨ (p f.state f.store).1 ≠ .done) :
    (pieces.foldl (feed cap p) f).state = final ∧ (pieces.foldl (feed cap p) f).failed = false := by
  induction pieces generalizing f rest with
  | nil =>
    rcases hstart with hstart | hstart
    · exact ⟨hstart, hfailed⟩
    · rw [flatten_nil, append_nil] at hrun
      exact absurd (congrArg Prod.fst hrun) hstart
  | cons piece pieces ih =>
    rw [foldl_cons]
    rw [flatten_cons, ← append_assoc, hp.resume_eq] at hrun
    rcases hpiece : p f.state (f.store ++ piece) with ⟨_ | _ | _, s', unread⟩
    · rw [hpiece] at hrun
      simp only [resume, Prod.mk.injEq, true_and] at hrun
      obtain ⟨rfl, -⟩ := hrun
      have hfeed : feed cap p f piece = ⟨s', f.store, false⟩ := by simp [feed, hfailed, hpiece]
      rw [hfeed]
      exact ih rfl (hfinal _) (Or.inl rfl)
    · rw [hpiece] at hrun
      simp only [resume] at hrun
      have hfits : unread.length ≤ cap := by
        rcases hp.bounded _ _ _ _ hpiece with hle | hstuck
        · exact hle
        · exact absurd (hstuck (unread ++ pieces.flatten)) (by simp [hrun])
      have hfeed : feed cap p f piece = ⟨s', unread, false⟩ := by
        simp [feed, hfailed, hpiece, hfits]
      rw [hfeed]
      exact ih rfl hrun (Or.inr (by simp [more_again hp.toStable hpiece]))
    · rw [hpiece] at hrun
      simp [resume] at hrun

end Resumable
