import LedgerBabylon.Lib.Resumable

/-!
# Pre- and postconditions of resumable parsers

An outcome says in which states a step may wait, with how much unread input, and in which states it
ends. There is a rule for every way of combining steps. A stable parser whose waiting states leave
little enough unread can be fed in any pieces: after each piece it is where one activation on all the
input so far would be.
-/

namespace Resumable

variable {α β σ τ : Type}

variable {s : σ} {a rest : List α} {cond : σ → Bool} {f : Fed α σ} {M : σ → Prop} {body : Step α σ}

/-- An activation that waits does so in `I` and with unread input that `W` allows; one that is done ends
in `D`. -/
def Meets (I : σ → Prop) (W : σ → List α → Prop) (D : σ → Prop) : Status × σ × List α → Prop
  | (.more, s', rest) => I s' ∧ W s' rest
  | (.done, s', _) => D s'
  | (.error, _, _) => True

/-- Started in `I`, the step waits only in `I` and with unread input that `W` allows, and is done only
in `D`. -/
def Outcome (I : σ → Prop) (W : σ → List α → Prop) (D : σ → Prop) (p : Step α σ) : Prop :=
  ∀ s a, I s → Meets I W D (p s a)

section

variable {I D : σ → Prop} {W : σ → List α → Prop} {p q : Step α σ}

theorem Outcome.unread (hp : Outcome I W D p) {s' : σ} (hs : I s)
    (h : p s a = (.more, s', rest)) : W s' rest := by
  have hout := hp s a hs
  rw [h] at hout
  exact hout.2

theorem Outcome.imp {I' D' : σ → Prop} {W' : σ → List α → Prop} (hp : Outcome I W D p)
    (hI : ∀ s, I' s ↔ I s) (hW : ∀ s a, W s a → W' s a) (hD : ∀ s, D s → D' s) :
    Outcome I' W' D' p := by
  intro s a hs
  have hout := hp s a ((hI s).mp hs)
  rcases hpa : p s a with ⟨_ | _ | _, s', rest⟩ <;> simp only [hpa, Meets] at hout ⊢
  · exact hD s' hout
  · exact ⟨(hI s').mpr hout.1, hW s' rest hout.2⟩

theorem Outcome.and_keepsCond (hp : Outcome I W D p) (hkeeps : KeepsCond cond p) :
    Outcome (fun s => I s ∧ cond s) W D p := by
  intro s a hs
  have hout := hp s a hs.1
  rcases hpa : p s a with ⟨_ | _ | _, s', rest⟩ <;> simp only [hpa, Meets] at hout ⊢
  · exact hout
  · exact ⟨⟨hout.1, hkeeps s a s' rest hs.2 hpa⟩, hout.2⟩

theorem outcome_ofReader {r : σ → List α → Option (β × List α)} {f : σ → β → Bool × σ}
    (hwait : ∀ s a, I s → r s a = none → W s a)
    (hread : ∀ s a x rest, I s → r s a = some (x, rest) → (f s x).1 → D (f s x).2) :
    Outcome I W D (ofReader r f) := by
  intro s a hs
  cases h : r s a with
  | none =>
    simp only [ofReader, h]
    exact ⟨hs, hwait s a hs h⟩
  | some y =>
    obtain ⟨x, rest⟩ := y
    simp only [ofReader, h]
    cases hf : (f s x).1 with
    | true => exact hread s a x rest hs h hf
    | false => trivial

theorem outcome_reading {r : List α → Option (β × List α)} {f : σ → β → σ}
    (hwait : ∀ s a, I s → r a = none → W s a) (hread : ∀ s x, I s → D (f s x)) :
    Outcome I W D (reading r f) :=
  outcome_ofReader hwait fun s _ x _ hs _ _ => hread s x hs

theorem outcome_always {f : σ → σ} (hf : ∀ s, I s → D (f s)) : Outcome I W D (always f : Step α σ) :=
  fun s _ hs => hf s hs

theorem outcome_skipIf {flag : σ → Bool} (hskip : ∀ s, I s → flag s → D s)
    (hp : Outcome I W D p) : Outcome I W D (skipIf flag p) := by
  intro s a hs
  cases hflag : flag s with
  | true =>
    rw [skipIf_of_flag hflag]
    exact hskip s hs hflag
  | false =>
    rw [skipIf_of_not_flag hflag]
    exact hp s a hs

theorem outcome_ignoreError (hp : Outcome I W (fun _ => True) p) :
    Outcome I W (fun _ => True) (ignoreError p) := by
  intro s a hs
  have hout := hp s a hs
  rcases hpa : p s a with ⟨_ | _ | _, s', rest⟩ <;> simp only [ignoreError, hpa] at hout ⊢ <;>
    exact hout

theorem outcome_on {get : τ → σ} {set : τ → σ → τ} {p : τ → Step α σ} {I D : τ → Prop}
    {W : τ → List α → Prop} (hset : ∀ t, set t (get t) = t)
    (hp : ∀ t, Outcome (fun s => I (set t s)) (fun s => W (set t s)) (fun s => D (set t s)) (p t)) :
    Outcome I W D (on get set p) := by
  intro t a ht
  have hstart : I (set t (get t)) := by rwa [hset t]
  have hout := hp t (get t) a hstart
  rcases hpa : p t (get t) a with ⟨_ | _ | _, s', rest⟩ <;> simp only [on, hpa] at hout ⊢ <;>
    exact hout

theorem outcome_andThen (hp : Outcome I W M p) (hq : Outcome M W D q)
    (hM : ∀ s, M s → I s) : Outcome I W D (andThen p q) := by
  intro s a hs
  have hfirst := hp s a hs
  rcases hpa : p s a with ⟨_ | _ | _, s', rest⟩ <;> simp only [andThen, hpa] at hfirst ⊢
  · have hsecond := hq s' rest hfirst
    rcases hqa : q s' rest with ⟨_ | _ | _, s'', rest'⟩ <;> simp only [hqa, Meets] at hsecond ⊢
    · exact hsecond
    · exact ⟨hM s'' hsecond.1, hsecond.2⟩
  · exact hfirst
  · trivial

theorem outcome_andThen_always {f : σ → σ} (hp : Outcome I W M p)
    (hf : ∀ s, M s → D (f s)) : Outcome I W D (andThen p (always f)) := by
  intro s a hs
  have hout := hp s a hs
  rcases hpa : p s a with ⟨_ | _ | _, s', rest⟩ <;> simp only [andThen, hpa] at hout ⊢
  · exact hf s' hout
  · exact hout
  · trivial

theorem outcome_doWhile {size : σ → List α → Nat} (hprogress : Progress size cond body)
    (hbody : Outcome I W (fun s => (cond s → I s) ∧ (cond s = false → D s)) body) :
    Outcome I W D (doWhile size cond body) := by
  intro s a hs
  induction hlen : size s a using Nat.strongRecOn generalizing s a with
  | ind n ih =>
    have hout := hbody s a hs
    rw [doWhile_eq hprogress]
    rcases hrun : body s a with ⟨_ | _ | _, s', rest⟩ <;> simp only [hrun, Meets] at hout ⊢
    · cases hcond : cond s' with
      | true =>
        have hlt := hprogress s a s' rest hrun hcond
        exact ih (size s' rest) (by omega) s' rest (hout.1 hcond) rfl
      | false => exact hout.2 hcond
    · exact hout

theorem outcome_loop {size : σ → List α → Nat} (hprogress : Progress size cond body)
    (hdone : ∀ s, I s → D s) (hbody : Outcome (fun s => I s ∧ cond s) W I body) :
    Outcome I W D (loop size cond body) := by
  intro s a hs
  by_cases hcond : cond s
  · have hwhile : Outcome (fun s => I s ∧ cond s) W D (doWhile size cond body) := by
      apply outcome_doWhile hprogress
      exact hbody.imp (fun _ => Iff.rfl) (fun _ _ => id) fun s hI =>
        ⟨fun hagain => ⟨hI, hagain⟩, fun _ => hdone s hI⟩
    have hout := hwhile s a ⟨hs, hcond⟩
    simp only [loop, hcond, if_true]
    rcases hrun : doWhile size cond body s a with ⟨_ | _ | _, s', rest⟩ <;>
      simp only [hrun, Meets] at hout ⊢
    · exact hout
    · exact ⟨hout.1.1, hout.2⟩
  · simp only [loop, hcond]
    exact hdone s hs

theorem outcome_run {I : Nat → σ → Prop} {steps : List (Step α σ)}
    (hsteps : ∀ k p, steps[k]? = some p → Outcome (I k) W (I (k + 1)) p) :
    Outcome (fun ks => I ks.1 ks.2) (fun ks => W ks.2) (fun _ => True) (run steps) := by
  suffices h : ∀ (ps : List (Step α σ)) (k : Nat) (s : σ) (a : List α), steps.drop k = ps → I k s →
      Meets (fun ks => I ks.1 ks.2) (fun ks => W ks.2) (fun _ => True) (runFrom ps (k, s) a) by
    intro ks a hks
    exact h _ ks.1 ks.2 a rfl hks
  intro ps
  induction ps with
  | nil =>
    intro k s a _ _
    trivial
  | cons p ps ih =>
    intro k s a hps hs
    have hp : steps[k]? = some p := by
      rw [← List.head?_drop, hps, List.head?_cons]
    have hdrop : steps.drop (k + 1) = ps := by
      rw [← List.tail_drop, hps, List.tail_cons]
    have hout := hsteps k p hp s a hs
    rcases hpa : p s a with ⟨_ | _ | _, s', rest⟩ <;> simp only [runFrom, hpa] at hout ⊢
    · exact ih (k + 1) s' rest hdrop hout
    · exact hout
    · trivial

end

def StaysDone (p : Step α σ) : Prop := ∀ s a s' rest, p s a = (.done, s', rest) → ∀ x, p s' x = (.done, s', x)

theorem runFrom_done {ps : List (Step α σ)} {k : Nat} {ks' : Nat × σ}
    (h : runFrom ps (k, s) a = (.done, ks', rest)) : ks'.1 = k + ps.length := by
  induction ps generalizing k s a with
  | nil =>
    simp only [runFrom, Prod.mk.injEq, true_and] at h
    rw [← h.1]
    rfl
  | cons p ps ih =>
    rcases hpa : p s a with ⟨_ | _ | _, s', rest'⟩ <;> simp only [runFrom, hpa] at h
    · rw [ih h, List.length_cons]
      omega
    · simp at h
    · simp at h

theorem staysDone_run (steps : List (Step α σ)) : StaysDone (run steps) := by
  rintro ⟨k, s⟩ a ⟨k', s'⟩ rest h x
  have hk := runFrom_done h
  simp only [List.length_drop] at hk
  exact run_finished (by omega) s' x

/-- A parser that was fed `a`, started in `s0`, is where one activation on all of `a` would be, and
while it waits has kept what that leaves unread. -/
def FedOn (p : Step α σ) (s0 : σ) (a : List α) (f : Fed α σ) : Prop :=
  match p s0 a with
  | (.more, s, rest) => f = ⟨s, rest, false⟩
  | (.done, s, _) => f.state = s ∧ f.failed = false
  | (.error, s, _) => f.state = s ∧ f.failed

variable {p : Step α σ} {s0 : σ} {cap : Nat}

theorem FedOn.feed (hstable : Stable p) (hdone : StaysDone p) {piece : List α}
    (hcap : ∀ s rest, p s0 (a ++ piece) = (.more, s, rest) → rest.length ≤ cap)
    (h : FedOn p s0 a f) : FedOn p s0 (a ++ piece) (feed cap p f piece) := by
  unfold FedOn at h ⊢
  rw [hstable.resume_eq] at hcap ⊢
  rcases hpa : p s0 a with ⟨_ | _ | _, s, rest⟩ <;> simp only [hpa, resume] at h hcap ⊢
  · obtain ⟨rfl, hfailed⟩ := h
    simp [Resumable.feed, hfailed, hdone _ _ _ _ hpa]
  · subst h
    rcases hnext : p s (rest ++ piece) with ⟨_ | _ | _, s', rest'⟩
    · simp [Resumable.feed, hnext]
    · simp [Resumable.feed, hnext, hcap s' rest' hnext]
    · simp [Resumable.feed, hnext]
  · obtain ⟨rfl, hfailed⟩ := h
    simp [Resumable.feed, hfailed]

/-- **Independence of the pieces.** If no piece ends with more unread input than the store holds, the
pieces have the effect of all the input at once. -/
theorem fedOn_foldl_feed (hstable : Stable p) (hdone : StaysDone p) {pieces : List (List α)}
    (hcap : ∀ b s rest, b <+: pieces.flatten → p s0 (a ++ b) = (.more, s, rest) → rest.length ≤ cap)
    (h : FedOn p s0 a f) : FedOn p s0 (a ++ pieces.flatten) (pieces.foldl (feed cap p) f) := by
  induction pieces generalizing f a with
  | nil => simpa using h
  | cons piece pieces ih =>
    rw [List.flatten_cons, ← List.append_assoc, List.foldl_cons]
    apply ih
    · intro b s rest hb hrun
      rw [List.append_assoc] at hrun
      exact hcap (piece ++ b) s rest ((List.prefix_append_right_inj piece).mpr hb) hrun
    · exact h.feed hstable hdone fun s rest hrun =>
        hcap piece s rest (List.prefix_append piece pieces.flatten) hrun

theorem FedOn.congr {f' : Fed α σ} (h : FedOn p s0 a f) (h' : FedOn p s0 a f') :
    f.state = f'.state ∧ f.failed = f'.failed := by
  unfold FedOn at h h'
  rcases hpa : p s0 a with ⟨_ | _ | _, s, rest⟩ <;> simp only [hpa] at h h'
  · exact ⟨h.1.trans h'.1.symm, h.2.trans h'.2.symm⟩
  · rw [h, h']
    exact ⟨rfl, rfl⟩
  · exact ⟨h.1.trans h'.1.symm, h.2.trans h'.2.symm⟩

end Resumable
