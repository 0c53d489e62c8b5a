import LedgerBabylon.Handler.RawTx

/-!
# The transaction parser can be resumed anywhere

Every step of the transaction parser is stable, and whenever it waits it leaves at most 32 bytes
unread or, after a script length of `2^31` or more, waits forever. The store of 32 bytes therefore
never overflows on a stream that the parser can finish.
-/

namespace LedgerBabylon

open Resumable List

variable {n : Nat} {a rest : Bytes} {flag : WitnessState → Bool} {f : WitnessState → Nat → WitnessState}

variable {x data : Bytes} {remaining : UInt32} {γ : Type} {q : Step UInt8 WitnessState}

theorem dbufferReadBytes_eq_some (h : dbufferReadBytes n a = some (x, rest)) :
    n ≤ a.length ∧ x = a.take n ∧ rest = a.drop n := by
  simp only [dbufferReadBytes] at h
  split_ifs at h with hn
  cases h
  exact ⟨hn, rfl, rfl⟩

theorem local_dbufferReadBytes (n : Nat) : Local (dbufferReadBytes n) where
  append a b x rest h := by
    obtain ⟨hn, rfl, rfl⟩ := dbufferReadBytes_eq_some h
    rw [dbufferReadBytes, if_pos (by rw [length_append]; omega),
      take_append_of_le_length hn, drop_append_of_le_length hn]
  length_le a x rest h := by
    obtain ⟨-, -, rfl⟩ := dbufferReadBytes_eq_some h
    simp

theorem length_lt_of_readBytes_none (hn : n ≤ 32) (h : dbufferReadBytes n a = none) : a.length < 32 := by
  simp only [dbufferReadBytes] at h
  split_ifs at h
  omega

theorem draws_dbufferReadBytes (hn : n ≤ 32) : Draws 32 (dbufferReadBytes n) where
  toLocal := local_dbufferReadBytes n
  needs _ h := .inl (length_lt_of_readBytes_none hn h).le

theorem varintTailLen_le (firstByte : UInt8) : varintTailLen firstByte ≤ 8 := by
  simp only [varintTailLen]
  split_ifs <;> omega

theorem dbufferReadVarint_length_lt {x : Nat}
    (h : dbufferReadVarint a = some (x, rest)) : rest.length < a.length := by
  cases a with
  | nil => simp [dbufferReadVarint] at h
  | cons firstByte tail =>
    simp only [dbufferReadVarint] at h
    split_ifs at h
    · obtain ⟨-, rfl⟩ := Prod.mk.inj (Option.some.inj h)
      simp
    · obtain ⟨-, rfl⟩ := Prod.mk.inj (Option.some.inj h)
      simp only [length_drop, length_cons]
      omega

theorem length_lt_of_readVarint_none (h : dbufferReadVarint a = none) : a.length < 32 := by
  cases a with
  | nil => simp
  | cons firstByte tail =>
    have htail := varintTailLen_le firstByte
    simp only [dbufferReadVarint] at h
    split_ifs at h
    simp only [length_cons]
    omega

theorem draws_dbufferReadVarint : Draws 32 dbufferReadVarint where
  append a b x rest h := by
    cases a with
    | nil => simp [dbufferReadVarint] at h
    | cons firstByte tail =>
      simp only [dbufferReadVarint, cons_append] at h ⊢
      split_ifs at h with hlen hsmall
      · cases h
        rw [if_neg (by rw [length_append]; omega), if_pos hsmall]
      · cases h
        rw [if_neg (by rw [length_append]; omega), if_neg hsmall,
          take_append_of_le_length (by omega), drop_append_of_le_length (by omega)]
  length_le a x rest h := (dbufferReadVarint_length_lt h).le
  needs _ h := .inl (length_lt_of_readVarint_none h).le

theorem length_lt_of_readChunk_none (hshort : remaining.toNat < 2 ^ 31)
    (h : dbufferReadChunk remaining a = none) : a.length < 32 := by
  rw [dbufferReadChunk, if_pos hshort] at h
  exact length_lt_of_readBytes_none (Nat.min_le_left _ _) h

theorem draws_dbufferReadChunk (remaining : UInt32) : Draws 32 (dbufferReadChunk remaining) where
  append a b x rest h := by
    simp only [dbufferReadChunk] at h ⊢
    split_ifs at h ⊢
    exact (local_dbufferReadBytes _).append a b x rest h
  length_le a x rest h := by
    simp only [dbufferReadChunk] at h
    split_ifs at h
    exact (local_dbufferReadBytes _).length_le a x rest h
  needs a h := by
    by_cases hsigned : remaining.toNat < 2 ^ 31
    · exact .inl (length_lt_of_readChunk_none hsigned h).le
    · exact .inr fun b => by rw [dbufferReadChunk, if_neg hsigned]

theorem dbufferReadChunk_eq_some (h : dbufferReadChunk remaining a = some (data, rest)) :
    data.length = min 32 remaining.toNat ∧ a.length = data.length + rest.length := by
  simp only [dbufferReadChunk, dbufferReadBytes] at h
  split_ifs at h with hsigned hle
  cases h
  rw [length_take, length_drop]
  omega

theorem chunk_progress {size counter : UInt32} (h : dbufferReadChunk (size - counter) a = some (data, rest))
    (hne : counter + UInt32.ofNat data.length ≠ size) : rest.length < a.length := by
  obtain ⟨hdata, hsum⟩ := dbufferReadChunk_eq_some h
  rcases Nat.eq_zero_or_pos data.length with hzero | hpos
  · have hsub : size - counter = 0 := by
      apply UInt32.toNat_inj.mp
      rw [UInt32.toNat_zero]
      omega
    have heq : counter = size := by
      rw [← UInt32.sub_add_cancel size counter, hsub, UInt32.zero_add]
    exact absurd (by rw [hzero, heq]; simp) hne
  · omega

theorem readSegwitFlag_eq_some {x : Option UInt8} (h : readSegwitFlag a = some (x, rest)) :
    (∃ b tail, b ≠ 0 ∧ a = b :: tail ∧ x = none ∧ rest = a)
      ∨ ∃ flag, a = 0 :: flag :: rest ∧ x = some flag := by
  cases a with
  | nil => simp [readSegwitFlag] at h
  | cons firstByte tail =>
    by_cases hzero : firstByte = 0
    · cases tail with
      | nil => simp [readSegwitFlag, hzero] at h
      | cons flag tail =>
        simp only [readSegwitFlag, hzero, ne_eq, not_true_eq_false, if_false, Option.some.injEq,
          Prod.mk.injEq] at h
        exact Or.inr ⟨flag, by rw [hzero, h.2], h.1.symm⟩
    · simp only [readSegwitFlag, ne_eq, hzero, not_false_eq_true, if_true, Option.some.injEq,
        Prod.mk.injEq] at h
      exact Or.inl ⟨firstByte, tail, hzero, rfl, h.1.symm, h.2.symm⟩

theorem length_lt_of_readSegwitFlag_none (h : readSegwitFlag a = none) : a.length < 32 := by
  match a, h with
  | [], _ => simp
  | [_], _ => simp
  | firstByte :: flag :: tail, h =>
    simp only [readSegwitFlag] at h
    split_ifs at h

theorem draws_readSegwitFlag : Draws 32 readSegwitFlag where
  append a b x rest h := by
    rcases readSegwitFlag_eq_some h with ⟨c, tail, hc, rfl, rfl, rfl⟩ | ⟨flag, rfl, rfl⟩
    · simp [readSegwitFlag, hc]
    · simp [readSegwitFlag]
  length_le a x rest h := by
    rcases readSegwitFlag_eq_some h with ⟨c, tail, hc, rfl, rfl, rfl⟩ | ⟨flag, rfl, rfl⟩
    · exact le_rfl
    · simp only [length_cons]
      omega
  needs _ h := .inl (length_lt_of_readSegwitFlag_none h).le

theorem progress_scriptsig : Progress (fun _ bytes => bytes.length)
    (fun s : InputState => s.scriptsigCounter ≠ s.scriptsigSize) scriptsigChunk := by
  intro s a s' rest h hcond
  cases hread : dbufferReadChunk (s.scriptsigSize - s.scriptsigCounter) a with
  | none => simp [scriptsigChunk, ofReader, hread] at h
  | some r =>
    obtain ⟨data, rest'⟩ := r
    simp only [scriptsigChunk, ofReader, hread, if_true, Prod.mk.injEq, true_and] at h
    obtain ⟨rfl, rfl⟩ := h
    exact chunk_progress hread (of_decide_eq_true hcond)

theorem resumes_parseRawtxinputSteps : ∀ p ∈ parseRawtxinputSteps, Resumes 32 p := by
  have hbytes (n : Nat) (hn : n ≤ 32) : Resumes 32 (InputState.hashBytes n) :=
    resumes_reading (draws_dbufferReadBytes hn)
  have hscript : Resumes 32 parseRawtxinputScriptsig :=
    resumes_doWhile progress_scriptsig (resumes_ofReader fun s => draws_dbufferReadChunk _)
  simp only [parseRawtxinputSteps, forall_mem_cons]
  exact ⟨hbytes 32 (by omega), hbytes 4 (by omega), resumes_reading draws_dbufferReadVarint,
    resumes_always _, hscript, hbytes 4 (by omega), by simp⟩

theorem progress_scriptpubkey (relevant : Bool) : Progress (fun _ bytes => bytes.length)
    (fun s : OutputState => s.scriptpubkeyCounter ≠ s.scriptpubkeySize)
    (scriptpubkeyChunk relevant) := by
  intro s a s' rest h hcond
  cases hread : dbufferReadChunk (s.scriptpubkeySize - s.scriptpubkeyCounter) a with
  | none => simp [scriptpubkeyChunk, ofReader, hread] at h
  | some r =>
    obtain ⟨data, rest'⟩ := r
    cases hlong : relevant && decide (maxPrevoutScriptpubkeyLen < s.outputs.voutScriptpubkeyLen.toNat) with
    | true => simp [scriptpubkeyChunk, ofReader, hread, hlong] at h
    | false =>
      simp only [scriptpubkeyChunk, ofReader, hread, hlong, Bool.false_eq_true, if_false, if_true,
        Prod.mk.injEq, true_and] at h
      obtain ⟨rfl, rfl⟩ := h
      exact chunk_progress hread (of_decide_eq_true hcond)

theorem resumes_parseRawtxoutputSteps (relevant : Bool) :
    ∀ p ∈ parseRawtxoutputSteps relevant, Resumes 32 p := by
  have hscript : Resumes 32 (parseRawtxoutputScriptpubkey relevant) :=
    resumes_doWhile (progress_scriptpubkey relevant) (resumes_ofReader fun s => draws_dbufferReadChunk _)
  simp only [parseRawtxoutputSteps, forall_mem_cons]
  exact ⟨resumes_reading (draws_dbufferReadBytes (by omega)),
    resumes_reading draws_dbufferReadVarint, resumes_always _, hscript, by simp⟩

theorem resumes_runInput : Resumes 32 runInput :=
  resumes_ignoreError <| resumes_on (fun _ _ => rfl) (fun _ _ _ => rfl) (fun _ _ => rfl)
    fun _ => resumes_run resumes_parseRawtxinputSteps

theorem resumes_runOutput : Resumes 32 runOutput :=
  resumes_ignoreError <| resumes_on (fun _ _ => rfl) (fun _ _ _ => rfl) (fun _ _ => rfl)
    fun t => resumes_run (resumes_parseRawtxoutputSteps t.relevant)

theorem dbufferReadBytes_length_lt (hn : 0 < n)
    (h : dbufferReadBytes n a = some (x, rest)) : rest.length < a.length := by
  obtain ⟨hle, -, rfl⟩ := dbufferReadBytes_eq_some h
  rw [length_drop]
  omega

theorem reads_runInput (t : TxState) (a : Bytes) (hstep : t.inputStep = 0) :
    (runInput t a).1 ≠ .more → (runInput t a).2.2.length < a.length := by
  apply reads_ignoreError
  have hsteps := resumes_parseRawtxinputSteps
  rw [parseRawtxinputSteps, forall_mem_cons] at hsteps
  have hreads : Reads parseRawtxinputTxid :=
    reads_reading fun _ _ _ h => dbufferReadBytes_length_lt (by omega) h
  obtain ⟨i, hi⟩ : ∃ i, t.input = (0, i) := ⟨t.input.2, by rw [← hstep]; rfl⟩
  simp only [on, hi]
  exact reads_run_zero hreads (fun q hq => (hsteps.2 q hq).toStable) i a

theorem reads_runOutput (t : TxState) (a : Bytes) (hstep : t.outputStep = 0) :
    (runOutput t a).1 ≠ .more → (runOutput t a).2.2.length < a.length := by
  apply reads_ignoreError
  have hsteps := resumes_parseRawtxoutputSteps t.relevant
  rw [parseRawtxoutputSteps, forall_mem_cons] at hsteps
  have hreads : Reads (parseRawtxoutputValue t.relevant) :=
    reads_reading fun _ _ _ h => dbufferReadBytes_length_lt (by omega) h
  obtain ⟨o, ho⟩ : ∃ o, t.output = (0, o) := ⟨t.output.2, by rw [← hstep]; rfl⟩
  simp only [on, ho]
  exact reads_run_zero hreads (fun q hq => (hsteps.2 q hq).toStable) o a

theorem progress_parseRawtxInput :
    Progress (fun t bytes => 2 * bytes.length + (decide (0 < t.inputStep)).toNat)
      (fun t => t.inCounter < t.nInputs) parseRawtxInput :=
  progress_andThen_always resumes_runInput.toStable
    (fun t a h => reads_runInput t a (by simpa using h)) fun _ => rfl

theorem progress_parseRawtxOutput :
    Progress (fun t bytes => 2 * bytes.length + (decide (0 < t.outputStep)).toNat)
      (fun t => t.outCounter < t.nOutputs) parseRawtxOutput :=
  progress_andThen_always resumes_runOutput.toStable
    (fun t a h => reads_runOutput t a (by simpa using h)) fun _ => rfl

theorem keepsCond_parseRawtxInput : KeepsCond (fun t => t.inCounter < t.nInputs) parseRawtxInput := by
  have hframe : Frame (fun t => (t.inCounter, t.nInputs)) runInput :=
    frame_ignoreError (frame_on fun _ _ => rfl)
  exact keepsCond_andThen_always (hframe.keepsCond (c := fun n => decide (n.1 < n.2)) fun _ => rfl)

theorem keepsCond_parseRawtxOutput : KeepsCond (fun t => t.outCounter < t.nOutputs) parseRawtxOutput := by
  have hframe : Frame (fun t => (t.outCounter, t.nOutputs)) runOutput :=
    frame_ignoreError (frame_on fun _ _ => rfl)
  exact keepsCond_andThen_always (hframe.keepsCond (c := fun n => decide (n.1 < n.2)) fun _ => rfl)

theorem resumes_parseRawtxInputs : Resumes 32 parseRawtxInputs :=
  resumes_loop progress_parseRawtxInput keepsCond_parseRawtxInput
    (resumes_andThen resumes_runInput (resumes_always _) (skips_always _ _))

theorem resumes_parseRawtxOutputs : Resumes 32 parseRawtxOutputs :=
  resumes_loop progress_parseRawtxOutput keepsCond_parseRawtxOutput
    (resumes_andThen resumes_runOutput (resumes_always _) (skips_always _ _))

theorem progress_witnessChunk : Progress (fun _ bytes => bytes.length)
    (fun w => w.curWitElBytesRead < w.curWitElemLen) witnessChunk := by
  intro w a w' rest h hcond
  cases hread : dbufferReadChunk (w.curWitElemLen - w.curWitElBytesRead) a with
  | none => simp [witnessChunk, ofReader, hread] at h
  | some r =>
    obtain ⟨data, rest'⟩ := r
    simp only [witnessChunk, ofReader, hread, if_true, Prod.mk.injEq, true_and] at h
    obtain ⟨rfl, rfl⟩ := h
    refine chunk_progress hread fun heq => ?_
    have hlt := of_decide_eq_true hcond
    simp only [heq] at hlt
    exact absurd hlt (UInt32.lt_irrefl _)

theorem resumes_witnessElementBytes : Resumes 32 witnessElementBytes :=
  resumes_loop progress_witnessChunk keepsCond_ofReader (resumes_ofReader fun _ => draws_dbufferReadChunk _)

theorem frame_witnessElementBytes {g : WitnessState → γ}
    (hg : ∀ w n, g { w with curWitElBytesRead := n } = g w) : Frame g witnessElementBytes :=
  frame_loop (frame_ofReader fun w _ => hg w _)

theorem skips_reading (hf : ∀ w n, flag (f w n)) (hq : Frame flag q) :
    Skips (skipIf flag (reading dbufferReadVarint f)) q := by
  refine skips_of_flag ?_ hq
  intro w a w' rest h
  cases hread : dbufferReadVarint a with
  | none => simp [reading, ofReader, hread] at h
  | some r =>
    simp only [reading_eq hread, Prod.mk.injEq, true_and] at h
    rw [← h.1]
    exact hf w r.1

theorem reads_skipIf_reading (hq : Stable q) (w : WitnessState) (a : Bytes) (hflag : flag w = false)
    (h : (andThen (skipIf flag (reading dbufferReadVarint f)) q w a).1 ≠ .more) :
    (andThen (skipIf flag (reading dbufferReadVarint f)) q w a).2.2.length < a.length := by
  simp only [andThen, skipIf_of_not_flag hflag] at h ⊢
  cases hread : dbufferReadVarint a with
  | none => simp [reading, ofReader, hread] at h
  | some r =>
    simp only [reading_eq hread]
    exact (hq.length_le _ r.2).trans_lt (dbufferReadVarint_length_lt hread)

/-! The parts of a witness are an item count or length followed by the items. -/

theorem resumes_count : Resumes 32 (skipIf flag (reading dbufferReadVarint f)) :=
  resumes_skipIf keepsCond_ofReader (resumes_reading draws_dbufferReadVarint)

theorem skips_witnessElementLen : Skips witnessElementLen witnessElementBytes :=
  skips_reading (fun _ _ => rfl) (frame_witnessElementBytes fun _ _ => rfl)

theorem frame_witnessElementLen {g : WitnessState → γ} (hg : ∀ w n,
      g { w with isCurWitElemLenRead := true, curWitElemLen := n, curWitElBytesRead := 0 } = g w) :
    Frame g witnessElementLen :=
  frame_skipIf (frame_ofReader fun w _ => hg w _)

theorem resumes_witnessElementRead : Resumes 32 (andThen witnessElementLen witnessElementBytes) :=
  resumes_andThen resumes_count resumes_witnessElementBytes skips_witnessElementLen

theorem progress_witnessElement : Progress (fun w bytes => 2 * bytes.length + w.isCurWitElemLenRead.toNat)
      (fun w => w.witStackElCounter < w.curWitStackElements) witnessElement :=
  progress_andThen_always resumes_witnessElementRead.toStable
    (fun w a h => reads_skipIf_reading resumes_witnessElementBytes.toStable w a h) fun _ => rfl

theorem keepsCond_witnessElement :
    KeepsCond (fun w => w.witStackElCounter < w.curWitStackElements) witnessElement := by
  have hframe : Frame (fun w : WitnessState => (w.witStackElCounter, w.curWitStackElements))
      (andThen witnessElementLen witnessElementBytes) :=
    frame_andThen (frame_witnessElementLen fun _ _ => rfl) (frame_witnessElementBytes fun _ _ => rfl)
  exact keepsCond_andThen_always (hframe.keepsCond (c := fun n => decide (n.1 < n.2)) fun _ => rfl)

theorem resumes_witnessElements : Resumes 32 witnessElements :=
  resumes_loop progress_witnessElement keepsCond_witnessElement <|
    resumes_andThen resumes_witnessElementRead (resumes_always _) (skips_always _ _)

theorem frame_witnessElements :
    Frame (fun w => (w.witCounter, w.isCurWitStackElementsRead)) witnessElements :=
  frame_loop <| frame_andThen
    (frame_andThen (frame_witnessElementLen fun _ _ => rfl) (frame_witnessElementBytes fun _ _ => rfl))
    (frame_always fun _ => rfl)

theorem skips_witnessCount : Skips witnessCount witnessElements :=
  skips_reading (fun _ _ => rfl) fun w a => congrArg Prod.snd (frame_witnessElements w a)

theorem resumes_witnessRead : Resumes 32 (andThen witnessCount witnessElements) :=
  resumes_andThen resumes_count resumes_witnessElements skips_witnessCount

theorem progress_witness (nInputs : UInt32) :
    Progress (fun w bytes => 2 * bytes.length + w.isCurWitStackElementsRead.toNat)
      (fun w => w.witCounter < nInputs) witness :=
  progress_andThen_always resumes_witnessRead.toStable
    (fun w a h => reads_skipIf_reading resumes_witnessElements.toStable w a h) fun _ => rfl

theorem keepsCond_witness (nInputs : UInt32) : KeepsCond (fun w => w.witCounter < nInputs) witness := by
  have hframe : Frame WitnessState.witCounter (andThen witnessCount witnessElements) :=
    frame_andThen (frame_skipIf (frame_ofReader fun _ _ => rfl))
      fun w a => congrArg Prod.fst (frame_witnessElements w a)
  exact keepsCond_andThen_always (hframe.keepsCond (c := fun n => decide (n < nInputs)) fun _ => rfl)

theorem resumes_witnesses (nInputs : UInt32) : Resumes 32 (witnesses nInputs) :=
  resumes_loop (progress_witness nInputs) (keepsCond_witness nInputs) <|
    resumes_andThen resumes_witnessRead (resumes_always _) (skips_always _ _)

theorem keepsCond_parseRawtxWitnesses {p : TxState → Step UInt8 WitnessState} :
    KeepsCond (fun t => !!t.isSegwit)
      (on TxState.witnessState (fun t w => { t with witnessState := w }) p) := by
  have hframe : Frame TxState.isSegwit
      (on TxState.witnessState (fun t w => { t with witnessState := w }) p) :=
    frame_on fun _ _ => rfl
  exact hframe.keepsCond (c := fun b => !!b) fun _ => rfl

theorem resumes_parseRawtxSteps : ∀ p ∈ parseRawtxSteps, Resumes 32 p := by
  have hwitnesses : Resumes 32 parseRawtxWitnesses := resumes_skipIf keepsCond_parseRawtxWitnesses <|
      resumes_on (fun _ _ => rfl) (fun _ _ _ => rfl) (fun _ _ => rfl) fun t => resumes_witnesses t.nInputs
  have hbytes : Resumes 32 TxState.hashBytes := resumes_reading (draws_dbufferReadBytes (by omega))
  simp only [parseRawtxSteps, forall_mem_cons]
  exact ⟨hbytes, resumes_ofReader fun _ => draws_readSegwitFlag,
    resumes_reading draws_dbufferReadVarint, resumes_always _, resumes_parseRawtxInputs,
    resumes_reading draws_dbufferReadVarint, resumes_always _, resumes_parseRawtxOutputs,
    resumes_always _, hwitnesses, hbytes, by simp⟩

end LedgerBabylon
