import LedgerBabylon.Common.Transaction
import LedgerBabylon.Handler.RawTxStable

/-!
# What the transaction parser returns

On the serialization of a transaction the parser hashes the serialization without witnesses and
keeps the selected output, in whatever pieces the bytes arrive, as long as the script of that output
fits. Nothing in the parser makes sure that it is fed such a serialization: it may stop early, bytes
may follow, and an error in an output is taken for its end.
-/

namespace LedgerBabylon

open List Endian Exec Resumable

variable {n k idx : Nat} {x : Bytes} {counter : UInt32} {s : InputState} {i : TxIn}
  {t : TxState} {o : TxOut} {w : WitnessState} {stack : List Bytes}

theorem dbufferReadBytes_append (hx : x.length = n) (rest : Bytes) :
    dbufferReadBytes n (x ++ rest) = some (x, rest) := by
  rw [dbufferReadBytes, if_pos (by rw [length_append]; omega), ← hx, take_left, drop_left]

theorem dbufferReadVarint_marker {marker : UInt8} {len : Nat} (hlen : varintTailLen marker = len)
    (hmarker : ¬ marker ≤ 0xFC) (hn : n < 256 ^ len) (rest : Bytes) :
    dbufferReadVarint (marker :: leBytes len n ++ rest) = some (n, rest) := by
  have htail : ¬ (leBytes len n ++ rest).length < len := by
    rw [length_append, length_leBytes]
    omega
  simp only [cons_append, dbufferReadVarint, hlen, if_neg htail, if_neg hmarker]
  rw [take_left' (length_leBytes len n), drop_left' (length_leBytes len n), leNat_leBytes,
    Nat.mod_eq_of_lt hn]

theorem dbufferReadVarint_compactSize (hn : n < 2 ^ 64) (rest : Bytes) :
    dbufferReadVarint (compactSize n ++ rest) = some (n, rest) := by
  simp only [compactSize]
  split_ifs with h1 h2 h4
  · have htoNat : (UInt8.ofNat n).toNat = n := by
      rw [UInt8.toNat_ofNat']
      omega
    have hle : UInt8.ofNat n ≤ 0xFC := by
      rw [UInt8.le_iff_toNat_le, htoNat]
      exact Nat.le_of_lt_succ h1
    have hlen : varintTailLen (UInt8.ofNat n) = 0 := by
      simp only [varintTailLen]
      split_ifs with h h h
      · exact absurd hle (by rw [h]; decide)
      · exact absurd hle (by rw [h]; decide)
      · exact absurd hle (by rw [h]; decide)
      · rfl
    simp [dbufferReadVarint, hlen, hle, htoNat]
  · exact dbufferReadVarint_marker (by decide) (by decide) (by omega) rest
  · exact dbufferReadVarint_marker (by decide) (by decide) (by omega) rest
  · exact dbufferReadVarint_marker (by decide) (by decide) (by omega) rest

/-- A loop over chunks of at most 32 bytes: `Left n s` says that `n` bytes are left to read, and `after
s data` is the state after some of them. -/
structure Chunked {σ : Type} (cond : σ → Bool) (body : Step UInt8 σ) (Left : Nat → σ → Prop)
    (after : σ → Bytes → σ) : Prop where
  cond_iff : ∀ n s, Left n s → (cond s ↔ n ≠ 0)
  read : ∀ n s chunk, Left n s → chunk.length = min 32 n → Consumes body s chunk (after s chunk)
  left : ∀ n s chunk, Left n s → chunk.length ≤ n → Left (n - chunk.length) (after s chunk)
  append : ∀ n s a b, Left n s → a.length + b.length ≤ n → after (after s a) b = after s (a ++ b)

namespace Chunked

variable {σ : Type} {cond : σ → Bool} {body : Step UInt8 σ} {Left : Nat → σ → Prop} {after : σ → Bytes → σ}

theorem consumes_doWhile (h : Chunked cond body Left after)
    (hprogress : Progress (fun _ bytes => bytes.length) cond body) (data : Bytes) {s : σ}
    (hleft : Left data.length s) :
    Consumes (doWhile (fun _ bytes => bytes.length) cond body) s data (after s data) := by
  induction hlen : data.length using Nat.strongRecOn generalizing s data with
  | ind n ih =>
    by_cases hlast : data.length ≤ 32
    · have hdone := h.left _ s data hleft le_rfl
      rw [Nat.sub_self] at hdone
      refine Consumes.doWhile_last hprogress (h.read _ s data hleft (by omega)) ?_
      simpa using (h.cond_iff 0 _ hdone).not.mpr (by simp)
    · have htake : (data.take 32).length = 32 := by rw [length_take]; omega
      have hdrop : (data.drop 32).length = data.length - 32 := length_drop
      have hnext := h.left _ s (data.take 32) hleft (by omega)
      rw [htake, ← hdrop] at hnext
      have hrest := ih _ (by omega) (data.drop 32) hnext rfl
      rw [h.append _ s _ _ hleft (by omega), take_append_drop] at hrest
      have hloop := Consumes.doWhile hprogress (h.read _ s (data.take 32) hleft (by omega))
        ((h.cond_iff _ _ hnext).mpr (by omega)) hrest
      rwa [take_append_drop] at hloop

theorem consumes_loop (h : Chunked cond body Left after)
    (hprogress : Progress (fun _ bytes => bytes.length) cond body) (data : Bytes) {s : σ}
    (hleft : Left data.length s) :
    ∃ s', Consumes (loop (fun _ bytes => bytes.length) cond body) s data s' := by
  by_cases hcond : cond s
  · refine ⟨after s data, fun rest => ?_⟩
    rw [loop, if_pos hcond]
    exact h.consumes_doWhile hprogress data hleft rest
  · have hnil : data = [] := by
      rw [h.cond_iff _ s hleft, not_not] at hcond
      exact length_eq_zero_iff.mp hcond
    exact ⟨s, hnil ▸ consumes_loop_nil (by simpa using hcond)⟩

end Chunked

theorem dbufferReadChunk_append {size : UInt32} (hsum : counter.toNat + n = size.toNat)
    (hsize : size.toNat < 2 ^ 31) {chunk : Bytes} (hchunk : chunk.length = min 32 n)
    (rest : Bytes) : dbufferReadChunk (size - counter) (chunk ++ rest) = some (chunk, rest) := by
  have hsub : (size - counter).toNat = n := by
    rw [UInt32.toNat_sub_of_le _ _ (UInt32.le_iff_toNat_le.mpr (by omega))]
    omega
  rw [dbufferReadChunk, hsub, if_pos (by omega)]
  exact dbufferReadBytes_append hchunk rest

theorem counter_add {size : UInt32} (hsum : counter.toNat + n = size.toNat)
    (hk : k ≤ n) : (counter + UInt32.ofNat k).toNat = counter.toNat + k := by
  have := size.toNat_lt
  rw [UInt32.toNat_add, UInt32.toNat_ofNat', Nat.mod_eq_of_lt (a := k) (by omega)]
  exact Nat.mod_eq_of_lt (by omega)

theorem ofNat_add_ofNat (counter : UInt32) (j k : Nat) :
    counter + UInt32.ofNat j + UInt32.ofNat k = counter + UInt32.ofNat (j + k) := by
  rw [UInt32.ofNat_add, UInt32.add_assoc]

theorem chunked_scriptsig :
    Chunked (fun s : InputState => s.scriptsigCounter ≠ s.scriptsigSize) scriptsigChunk
      (fun n s => s.scriptsigCounter.toNat + n = s.scriptsigSize.toNat ∧ s.scriptsigSize.toNat < 2 ^ 31)
      (fun s data => { s with
        hashed := s.hashed ++ data
        scriptsigCounter := s.scriptsigCounter + UInt32.ofNat data.length }) where
  cond_iff n s hleft := by
    rw [decide_eq_true_eq, ne_eq, ← UInt32.toNat_inj]
    omega
  read n s chunk hleft hchunk rest := by
    simp only [scriptsigChunk, ofReader, dbufferReadChunk_append hleft.1 hleft.2 hchunk, if_true]
  left n s chunk hleft hchunk := by
    refine ⟨?_, hleft.2⟩
    simp only [counter_add hleft.1 hchunk]
    omega
  append n s a b hleft hsum := by
    simp only [length_append, append_assoc, ofNat_add_ofNat]

theorem consumes_inputBytes (hx : x.length = n) :
    Consumes (InputState.hashBytes n) s x { s with hashed := s.hashed ++ x } :=
  consumes_reading (dbufferReadBytes_append hx)

theorem consumes_parseRawtxinput (hscript : i.scriptSig.length < 2 ^ 31) :
    ∃ s', Consumes (run parseRawtxinputSteps) (0, s) i.serialize (6, s')
      ∧ s'.hashed = s.hashed ++ i.serialize := by
  have hsize : (UInt32.ofNat i.scriptSig.length).toNat = i.scriptSig.length := by
    rw [UInt32.toNat_ofNat']
    omega
  have hrun := Consumes.run <| (consumes_inputBytes (s := s) i.prevTxid.length_bytes).runFrom (k := 0) <|
    (consumes_inputBytes (length_leBytes 4 i.prevVout.toNat)).runFrom <|
    (consumes_reading (f := fun s n => { s with
        scriptsigSize := UInt32.ofNat n, hashed := s.hashed ++ varintWrite n })
      (dbufferReadVarint_compactSize (n := i.scriptSig.length) (by omega))).runFrom <|
    (consumes_always (fun s => { s with scriptsigCounter := 0 }) _).runFrom <|
    (chunked_scriptsig.consumes_doWhile progress_scriptsig i.scriptSig
      ⟨by simp [hsize], by simpa [hsize] using hscript⟩).runFrom <|
    (consumes_inputBytes (length_leBytes 4 i.sequence.toNat)).runFrom <|
    consumes_runFrom_nil _
  exact ⟨_, hrun.congr (by simp [TxIn.serialize, withSize]),
    by simp [TxIn.serialize, withSize, varintWrite_eq_compactSize]⟩

theorem consumes_parseRawtxInput (hscript : i.scriptSig.length < 2 ^ 31) (hstep : t.inputStep = 0) :
    ∃ t', Consumes parseRawtxInput t i.serialize t' ∧ t'.hashed = t.hashed ++ i.serialize
      ∧ t'.inputStep = 0 ∧ t'.inCounter = t.inCounter + 1 ∧ t'.nInputs = t.nInputs := by
  obtain ⟨s', hinput, hhashed⟩ := consumes_parseRawtxinput (s := t.input.2) hscript
  have hget : t.input = (0, t.input.2) := by rw [← hstep]; rfl
  rw [← hget] at hinput
  have hrun : Consumes runInput t i.serialize (t.setInput (6, s')) :=
    (Consumes.on (p := fun _ => run parseRawtxinputSteps) hinput).ignoreError
  have hbody := hrun.andThen (consumes_always
    (fun t : TxState => { t with inCounter := t.inCounter + 1, inputStep := 0 }) _)
  exact ⟨_, hbody.congr (append_nil _), hhashed, rfl, rfl, rfl⟩

theorem counter_succ {total : UInt32} (h : counter.toNat + (n + 1) = total.toNat) :
    counter < total ∧ (counter + 1).toNat + n = total.toNat := by
  have := total.toNat_lt
  refine ⟨UInt32.lt_iff_toNat_lt.mpr (by omega), ?_⟩
  rw [UInt32.toNat_add, UInt32.toNat_one]
  omega

theorem consumes_parseRawtxInputs (is : List TxIn)
    (hscripts : ∀ i ∈ is, i.scriptSig.length < 2 ^ 31) (hstep : t.inputStep = 0)
    (hcount : t.inCounter.toNat + is.length = t.nInputs.toNat) :
    ∃ t', Consumes parseRawtxInputs t (is.flatMap TxIn.serialize) t'
      ∧ t'.hashed = t.hashed ++ is.flatMap TxIn.serialize := by
  induction is generalizing t with
  | nil =>
    have hend : ¬ t.inCounter < t.nInputs := by
      rw [UInt32.lt_iff_toNat_lt, ← hcount]
      simp
    exact ⟨t, consumes_loop_nil (by simpa using hend), by simp⟩
  | cons i is ih =>
    rw [forall_mem_cons] at hscripts
    obtain ⟨hlt, hnext⟩ := counter_succ hcount
    obtain ⟨t1, hinput, hhashed, hstep1, hcounter, htotal⟩ := consumes_parseRawtxInput hscripts.1 hstep
    rw [← hcounter, ← htotal] at hnext
    obtain ⟨t2, hinputs, hhashed2⟩ := ih hscripts.2 hstep1 hnext
    refine ⟨t2, ?_, by rw [hhashed2, hhashed, flatMap_cons, append_assoc]⟩
    exact Consumes.loop progress_parseRawtxInput (decide_eq_true hlt) hinput hinputs

theorem frame_parseRawtxInputs :
    Frame (fun t => (t.isSegwit, t.nInputs, t.outputIndex, t.outputs)) parseRawtxInputs :=
  frame_loop (frame_andThen (frame_ignoreError (frame_on fun _ _ => rfl)) (frame_always fun _ => rfl))

def TxidParserOutputs.select (outputs : TxidParserOutputs) (o : TxOut) : TxidParserOutputs where
  voutValue := o.value.toNat
  voutScriptpubkeyLen := UInt32.ofNat o.scriptPubkey.length
  voutScriptpubkey := outputs.voutScriptpubkey.write 0 o.scriptPubkey

theorem chunked_scriptpubkey (relevant : Bool) :
    Chunked (fun s : OutputState => s.scriptpubkeyCounter ≠ s.scriptpubkeySize) (scriptpubkeyChunk relevant)
      (fun n s => s.scriptpubkeyCounter.toNat + n = s.scriptpubkeySize.toNat
        ∧ s.scriptpubkeySize.toNat < 2 ^ 31
        ∧ (relevant → s.outputs.voutScriptpubkeyLen.toNat ≤ maxPrevoutScriptpubkeyLen))
      (fun s data => { s with
        hashed := s.hashed ++ data
        outputs :=
          if relevant then
            { s.outputs with
              voutScriptpubkey := s.outputs.voutScriptpubkey.write s.scriptpubkeyCounter.toNat data }
          else s.outputs
        scriptpubkeyCounter := s.scriptpubkeyCounter + UInt32.ofNat data.length }) where
  cond_iff n s hleft := by
    rw [decide_eq_true_eq, ne_eq, ← UInt32.toNat_inj]
    omega
  read n s chunk hleft hchunk rest := by
    obtain ⟨hsum, hsize, hfits⟩ := hleft
    have hshort : (relevant
        && decide (maxPrevoutScriptpubkeyLen < s.outputs.voutScriptpubkeyLen.toNat)) = false := by
      cases relevant with
      | false => rfl
      | true => simpa using hfits rfl
    simp only [scriptpubkeyChunk, ofReader, dbufferReadChunk_append hsum hsize hchunk, hshort,
      Bool.false_eq_true, if_false, if_true]
  left n s chunk hleft hchunk := by
    obtain ⟨hsum, hsize, hfits⟩ := hleft
    refine ⟨?_, hsize, fun h => ?_⟩
    · simp only [counter_add hsum hchunk]
      omega
    · simp only [h, if_true]
      exact hfits h
  append n s a b hleft hsum := by
    have hcounter := counter_add hleft.1 (k := a.length) (by omega)
    cases relevant with
    | false => simp only [length_append, append_assoc, ofNat_add_ofNat, Bool.false_eq_true, if_false]
    | true => simp only [length_append, append_assoc, ofNat_add_ofNat, if_true, hcounter, Memory.write_append]

theorem consumes_parseRawtxoutput {relevant : Bool} {s : OutputState}
    (hscript : o.scriptPubkey.length < 2 ^ 31)
    (hfits : relevant → o.scriptPubkey.length ≤ maxPrevoutScriptpubkeyLen) :
    ∃ s', Consumes (run (parseRawtxoutputSteps relevant)) (0, s) o.serialize (4, s')
      ∧ s'.hashed = s.hashed ++ o.serialize
      ∧ s'.outputs = if relevant then s.outputs.select o else s.outputs := by
  have hsize : (UInt32.ofNat o.scriptPubkey.length).toNat = o.scriptPubkey.length := by
    rw [UInt32.toNat_ofNat']
    omega
  have hrun := Consumes.run <|
    (consumes_reading (s := s) (f := fun s value => { s with
        hashed := s.hashed ++ value
        outputs := if relevant then { s.outputs with voutValue := leNat value } else s.outputs })
      (dbufferReadBytes_append (length_leBytes 8 o.value.toNat))).runFrom (k := 0) <|
    (consumes_reading (f := fun s n => { s with
        scriptpubkeySize := UInt32.ofNat n
        hashed := s.hashed ++ varintWrite n
        outputs :=
          if relevant then { s.outputs with voutScriptpubkeyLen := UInt32.ofNat n }
          else s.outputs })
      (dbufferReadVarint_compactSize (n := o.scriptPubkey.length) (by omega))).runFrom <|
    (consumes_always (fun s => { s with scriptpubkeyCounter := 0 }) _).runFrom <|
    ((chunked_scriptpubkey relevant).consumes_doWhile (progress_scriptpubkey relevant) o.scriptPubkey
      ⟨by simp [hsize], by simpa [hsize] using hscript,
        fun h => by simpa [h, hsize] using hfits h⟩).runFrom <|
    consumes_runFrom_nil _
  have hvalue : leNat (leBytes 8 o.value.toNat) = o.value.toNat := by
    rw [leNat_leBytes]
    exact Nat.mod_eq_of_lt o.value.toNat_lt
  refine ⟨_, hrun.congr (by simp [TxOut.serialize, withSize]), ?_, ?_⟩
  · simp [TxOut.serialize, withSize, varintWrite_eq_compactSize]
  · cases relevant with
    | false => rfl
    | true => simp [TxidParserOutputs.select, hvalue]

theorem consumes_parseRawtxOutput (hscript : o.scriptPubkey.length < 2 ^ 31)
    (hfits : t.relevant → o.scriptPubkey.length ≤ maxPrevoutScriptpubkeyLen)
    (hstep : t.outputStep = 0) :
    ∃ t', Consumes parseRawtxOutput t o.serialize t' ∧ t'.hashed = t.hashed ++ o.serialize
      ∧ t'.outputStep = 0 ∧ t'.outCounter = t.outCounter + 1 ∧ t'.nOutputs = t.nOutputs
      ∧ t'.outputIndex = t.outputIndex
      ∧ t'.outputs = if t.relevant then t.outputs.select o else t.outputs := by
  obtain ⟨s', houtput, hhashed, houtputs⟩ := consumes_parseRawtxoutput (s := t.output.2) hscript hfits
  have hget : t.output = (0, t.output.2) := by rw [← hstep]; rfl
  rw [← hget] at houtput
  have hrun : Consumes runOutput t o.serialize (t.setOutput (4, s')) :=
    (Consumes.on (p := fun t : TxState => run (parseRawtxoutputSteps t.relevant)) houtput).ignoreError
  have hbody := hrun.andThen (consumes_always
    (fun t : TxState => { t with outCounter := t.outCounter + 1, outputStep := 0 }) _)
  exact ⟨_, hbody.congr (append_nil _), hhashed, rfl, rfl, rfl, rfl, houtputs⟩

theorem relevant_iff (hidx : t.outputIndex = idx) (hlt : idx < 2 ^ 32) :
    t.relevant ↔ t.outCounter.toNat = idx := by
  simp only [TxState.relevant, hidx, ne_eq, Bool.and_eq_true, decide_eq_true_eq]
  omega

theorem consumes_parseRawtxOutputs (os : List TxOut) (hidx : t.outputIndex = idx) (hlt : idx < 2 ^ 32)
    (hscripts : ∀ o ∈ os, o.scriptPubkey.length < 2 ^ 31)
    (hfits : ∀ j o, os[j]? = some o → t.outCounter.toNat + j = idx →
      o.scriptPubkey.length ≤ maxPrevoutScriptpubkeyLen)
    (hstep : t.outputStep = 0) (hcount : t.outCounter.toNat + os.length = t.nOutputs.toNat) :
    ∃ t', Consumes parseRawtxOutputs t (os.flatMap TxOut.serialize) t'
      ∧ t'.hashed = t.hashed ++ os.flatMap TxOut.serialize
      ∧ (idx < t.outCounter.toNat → t'.outputs = t.outputs)
      ∧ ∀ j o, os[j]? = some o → t.outCounter.toNat + j = idx → t'.outputs = t.outputs.select o := by
  induction os generalizing t with
  | nil =>
    have hend : ¬ t.outCounter < t.nOutputs := by
      rw [UInt32.lt_iff_toNat_lt, ← hcount]
      simp
    exact ⟨t, consumes_loop_nil (by simpa using hend), by simp, fun _ => rfl, by simp⟩
  | cons o os ih =>
    rw [forall_mem_cons] at hscripts
    obtain ⟨hcond, hnext⟩ := counter_succ hcount
    have hrelevant := relevant_iff hidx hlt
    obtain ⟨t1, houtput, hhashed, hstep1, hcounter, htotal, hidx1, houtputs⟩ :=
      consumes_parseRawtxOutput hscripts.1 (fun h => hfits 0 o rfl (hrelevant.mp h)) hstep
    have hone : (t.outCounter + 1).toNat = t.outCounter.toNat + 1 := by
      have := t.nOutputs.toNat_lt
      rw [length_cons] at hcount
      omega
    rw [← hcounter, ← htotal] at hnext
    rw [← hcounter] at hone
    obtain ⟨t2, hrest, hhashed2, hpast, hselected⟩ := ih (hidx1.trans hidx) hscripts.2
      (fun j o' hj hsum => hfits (j + 1) o' hj (by omega)) hstep1 hnext
    refine ⟨t2, Consumes.loop progress_parseRawtxOutput (decide_eq_true hcond) houtput hrest,
      by rw [hhashed2, hhashed, flatMap_cons, append_assoc], fun h => ?_, ?_⟩
    · rw [hpast (by omega), houtputs, if_neg (by rw [hrelevant]; omega)]
    · intro j o' hj hsum
      cases j with
      | zero =>
        obtain rfl : o = o' := Option.some.inj hj
        rw [hpast (by omega), houtputs, if_pos (hrelevant.mpr hsum)]
      | succ j =>
        rw [hselected j o' hj (by omega), houtputs, if_neg (by rw [hrelevant]; omega)]

theorem chunked_witness : Chunked (fun w : WitnessState => w.curWitElBytesRead < w.curWitElemLen) witnessChunk
      (fun n w => w.curWitElBytesRead.toNat + n = w.curWitElemLen.toNat ∧ w.curWitElemLen.toNat < 2 ^ 31)
      (fun w data => { w with
        curWitElBytesRead := w.curWitElBytesRead + UInt32.ofNat data.length }) where
  cond_iff n w hleft := by
    rw [decide_eq_true_eq, UInt32.lt_iff_toNat_lt]
    omega
  read n w chunk hleft hchunk rest := by
    simp only [witnessChunk, ofReader, dbufferReadChunk_append hleft.1 hleft.2 hchunk, if_true]
  left n w chunk hleft hchunk := by
    refine ⟨?_, hleft.2⟩
    simp only [counter_add hleft.1 hchunk]
    omega
  append n w a b hleft hsum := by
    simp only [length_append, ofNat_add_ofNat]

theorem consumes_witnessElement {data : Bytes} (hdata : data.length < 2 ^ 31)
    (hflag : w.isCurWitElemLenRead = false) :
    ∃ w', Consumes witnessElement w (withSize data) w' ∧ w'.isCurWitElemLenRead = false
      ∧ w'.witStackElCounter = w.witStackElCounter + 1
      ∧ w'.curWitStackElements = w.curWitStackElements := by
  have hsize : (UInt32.ofNat data.length).toNat = data.length := by
    rw [UInt32.toNat_ofNat']
    omega
  have hlen : Consumes witnessElementLen w (compactSize data.length) { w with
      isCurWitElemLenRead := true
      curWitElemLen := UInt32.ofNat data.length
      curWitElBytesRead := 0 } :=
    (consumes_reading (dbufferReadVarint_compactSize (by omega))).skipIf hflag
  obtain ⟨w1, hbytes⟩ := chunked_witness.consumes_loop progress_witnessChunk data
    (s := { w with
      isCurWitElemLenRead := true
      curWitElemLen := UInt32.ofNat data.length
      curWitElBytesRead := 0 })
    ⟨by simp [hsize], by simpa [hsize] using hdata⟩
  have hframe := (frame_witnessElementBytes
    (g := fun w => (w.witStackElCounter, w.curWitStackElements)) fun _ _ => rfl).of_consumes hbytes
  obtain ⟨hcounter, htotal⟩ := Prod.mk.inj hframe
  have hbody := (hlen.andThen hbytes).andThen (consumes_always (fun w : WitnessState =>
    { w with witStackElCounter := w.witStackElCounter + 1, isCurWitElemLenRead := false }) _)
  exact ⟨_, hbody.congr (by simp [withSize]), rfl, by rw [hcounter], htotal⟩

theorem consumes_witnessElements
    (hstack : ∀ data ∈ stack, data.length < 2 ^ 31) (hflag : w.isCurWitElemLenRead = false)
    (hcount : w.witStackElCounter.toNat + stack.length = w.curWitStackElements.toNat) :
    ∃ w', Consumes witnessElements w (stack.flatMap withSize) w' := by
  induction stack generalizing w with
  | nil =>
    have hend : ¬ w.witStackElCounter < w.curWitStackElements := by
      rw [UInt32.lt_iff_toNat_lt, ← hcount]
      simp
    exact ⟨w, consumes_loop_nil (by simpa using hend)⟩
  | cons data stack ih =>
    rw [forall_mem_cons] at hstack
    obtain ⟨hlt, hnext⟩ := counter_succ hcount
    obtain ⟨w1, hdata, hflag1, hcounter, htotal⟩ := consumes_witnessElement hstack.1 hflag
    rw [← hcounter, ← htotal] at hnext
    obtain ⟨w2, hrest⟩ := ih hstack.2 hflag1 hnext
    exact ⟨w2, Consumes.loop progress_witnessElement (decide_eq_true hlt) hdata hrest⟩

theorem consumes_witness (hstack : ∀ data ∈ stack, data.length < 2 ^ 31) (hlength : stack.length < 2 ^ 31)
    (hflag : w.isCurWitStackElementsRead = false) :
    ∃ w', Consumes witness w (serializeWitness stack) w' ∧ w'.isCurWitStackElementsRead = false
      ∧ w'.witCounter = w.witCounter + 1 := by
  have hsize : (UInt32.ofNat stack.length).toNat = stack.length := by
    rw [UInt32.toNat_ofNat']
    omega
  have hnumber : Consumes witnessCount w (compactSize stack.length) { w with
      isCurWitStackElementsRead := true
      curWitStackElements := UInt32.ofNat stack.length
      isCurWitElemLenRead := false
      witStackElCounter := 0 } :=
    (consumes_reading (dbufferReadVarint_compactSize (by omega))).skipIf hflag
  obtain ⟨w1, helements⟩ := consumes_witnessElements (w := { w with
      isCurWitStackElementsRead := true
      curWitStackElements := UInt32.ofNat stack.length
      isCurWitElemLenRead := false
      witStackElCounter := 0 }) hstack rfl (by simp [hsize])
  have hframe := congrArg Prod.fst (frame_witnessElements.of_consumes helements)
  have hbody := (hnumber.andThen helements).andThen (consumes_always (fun w : WitnessState =>
    { w with witCounter := w.witCounter + 1, isCurWitStackElementsRead := false }) _)
  exact ⟨_, hbody.congr (append_nil _), rfl, by rw [show w1.witCounter = w.witCounter from hframe]⟩

theorem consumes_witnesses {ws : List (List Bytes)} (nInputs : UInt32)
    (hstacks : ∀ stack ∈ ws, stack.length < 2 ^ 31 ∧ ∀ data ∈ stack, data.length < 2 ^ 31)
    (hflag : w.isCurWitStackElementsRead = false)
    (hcount : w.witCounter.toNat + ws.length = nInputs.toNat) :
    ∃ w', Consumes (witnesses nInputs) w (ws.flatMap serializeWitness) w' := by
  induction ws generalizing w with
  | nil =>
    have hend : ¬ w.witCounter < nInputs := by
      rw [UInt32.lt_iff_toNat_lt, ← hcount]
      simp
    exact ⟨w, consumes_loop_nil (by simpa using hend)⟩
  | cons stack ws ih =>
    rw [forall_mem_cons] at hstacks
    obtain ⟨hlt, hnext⟩ := counter_succ hcount
    obtain ⟨w1, hstack, hflag1, hcounter⟩ := consumes_witness hstacks.1.2 hstacks.1.1 hflag
    rw [← hcounter] at hnext
    obtain ⟨w2, hrest⟩ := ih hstacks.2 hflag1 hnext
    exact ⟨w2, Consumes.loop (progress_witness nInputs) (decide_eq_true hlt) hstack hrest⟩

theorem consumes_hashBytes :
    Consumes TxState.hashBytes t (leBytes 4 n) { t with hashed := t.hashed ++ leBytes 4 n } :=
  consumes_reading (dbufferReadBytes_append (length_leBytes 4 n))

theorem frame_parseRawtxOutputs : Frame (fun t => (t.isSegwit, t.nInputs)) parseRawtxOutputs :=
  frame_loop (frame_andThen (frame_ignoreError (frame_on fun _ _ => rfl)) (frame_always fun _ => rfl))

theorem consumes_inputPhase {tx : Tx} {ps : List (Step UInt8 TxState)} (hwithin : tx.Within (2 ^ 31)) :
    ∃ t1, t1.hashed = t.hashed ++ (compactSize tx.inputs.length ++ tx.inputs.flatMap TxIn.serialize)
      ∧ t1.nInputs.toNat = tx.inputs.length ∧ t1.isSegwit = t.isSegwit
      ∧ t1.outputIndex = t.outputIndex ∧ t1.outputs = t.outputs
      ∧ ∀ b ks', Consumes (runFrom ps) (k + 3, t1) b ks' →
        Consumes (runFrom (parseRawtxInputCount :: parseRawtxInputsInit :: parseRawtxInputs :: ps))
          (k, t) (compactSize tx.inputs.length ++ tx.inputs.flatMap TxIn.serialize ++ b) ks' := by
  have hlength := hwithin.inputs
  have hsize : (UInt32.ofNat tx.inputs.length).toNat = tx.inputs.length := by
    rw [UInt32.toNat_ofNat']
    omega
  have hcount : Consumes parseRawtxInputCount t (compactSize tx.inputs.length) _ :=
    consumes_reading (dbufferReadVarint_compactSize (by omega))
  obtain ⟨t1, hinputs, hhashed⟩ := consumes_parseRawtxInputs tx.inputs
    (t := { t with
      nInputs := UInt32.ofNat tx.inputs.length
      hashed := t.hashed ++ varintWrite tx.inputs.length
      inCounter := 0
      inputStep := 0 })
    hwithin.scriptSigs rfl (by simp [hsize])
  have hframe := frame_parseRawtxInputs.of_consumes hinputs
  simp only [Prod.mk.injEq] at hframe
  obtain ⟨hsegwit, htotal, hindex, houtputs⟩ := hframe
  refine ⟨t1, by rw [hhashed, varintWrite_eq_compactSize, append_assoc], by rw [htotal, hsize],
    hsegwit, hindex, houtputs, fun b ks' hrest => ?_⟩
  exact (hcount.runFrom ((consumes_always _ _).runFrom (hinputs.runFrom hrest))).congr (by simp)

theorem consumes_outputPhase {tx : Tx}
    {ps : List (Step UInt8 TxState)} (hwithin : tx.Within (2 ^ 31)) (hidx : t.outputIndex = idx)
    (ho : tx.outputs[idx]? = some o) (hfits : o.scriptPubkey.length ≤ maxPrevoutScriptpubkeyLen) :
    ∃ t1, t1.hashed = t.hashed ++ (compactSize tx.outputs.length ++ tx.outputs.flatMap TxOut.serialize)
      ∧ t1.isSegwit = t.isSegwit ∧ t1.nInputs = t.nInputs ∧ t1.outputs = t.outputs.select o
      ∧ ∀ b ks', Consumes (runFrom ps) (k + 3, t1) b ks' →
        Consumes (runFrom (parseRawtxOutputCount :: parseRawtxOutputsInit :: parseRawtxOutputs :: ps))
          (k, t) (compactSize tx.outputs.length ++ tx.outputs.flatMap TxOut.serialize ++ b) ks' := by
  have hlength := hwithin.outputs
  have hlt : idx < tx.outputs.length := (List.getElem?_eq_some_iff.mp ho).1
  have hsize : (UInt32.ofNat tx.outputs.length).toNat = tx.outputs.length := by
    rw [UInt32.toNat_ofNat']
    omega
  have hcount : Consumes parseRawtxOutputCount t (compactSize tx.outputs.length) _ :=
    consumes_reading (dbufferReadVarint_compactSize (by omega))
  obtain ⟨t1, houtputs, hhashed, -, hselected⟩ := consumes_parseRawtxOutputs tx.outputs
    (t := { t with
      nOutputs := UInt32.ofNat tx.outputs.length
      hashed := t.hashed ++ varintWrite tx.outputs.length
      outCounter := 0
      outputStep := 0 })
    hidx (by omega) hwithin.scriptPubkeys
    (fun j o' hj hsum => by
      obtain rfl : j = idx := by simpa using hsum
      obtain rfl : o = o' := Option.some.inj (ho.symm.trans hj)
      exact hfits)
    rfl (by simp [hsize])
  have hframe := frame_parseRawtxOutputs.of_consumes houtputs
  simp only [Prod.mk.injEq] at hframe
  refine ⟨t1, by rw [hhashed, varintWrite_eq_compactSize, append_assoc], hframe.1, hframe.2,
    hselected idx o ho (by simp), fun b ks' hrest => ?_⟩
  exact (hcount.runFrom ((consumes_always _ _).runFrom (houtputs.runFrom hrest))).congr (by simp)

theorem consumes_witnessPhase {tx : Tx} (hwithin : tx.Within (2 ^ 31))
    (hinputs : t.nInputs.toNat = tx.inputs.length) (hsegwit : t.isSegwit = tx.witnesses.isSome) :
    ∃ t', t'.hashed = t.hashed ++ leBytes 4 tx.locktime.toNat ∧ t'.outputs = t.outputs
      ∧ Consumes (runFrom [parseRawtxWitnessesInit, parseRawtxWitnesses, parseRawtxLocktime]) (k, t)
        ((tx.witnesses.getD []).flatMap serializeWitness ++ leBytes 4 tx.locktime.toNat)
        (k + 3, t') := by
  have hinit : Consumes parseRawtxWitnessesInit t [] _ := consumes_always _ t
  obtain ⟨t1, hwitnesses, hhashed, houtputs⟩ : ∃ t1, Consumes parseRawtxWitnesses
      { t with witnessState :=
          { t.witnessState with witCounter := 0, isCurWitStackElementsRead := false } }
      ((tx.witnesses.getD []).flatMap serializeWitness) t1
      ∧ t1.hashed = t.hashed ∧ t1.outputs = t.outputs := by
    cases hws : tx.witnesses with
    | none => exact ⟨_, consumes_skipIf_nil (by simp [hsegwit, hws]), rfl, rfl⟩
    | some ws =>
      have hlength := tx.length_witnesses ws hws
      obtain ⟨w', hrun⟩ := consumes_witnesses t.nInputs
        (w := { t.witnessState with witCounter := 0, isCurWitStackElementsRead := false })
        (hwithin.witnesses ws hws) rfl (by simp [hlength, hinputs])
      have hpart : Consumes (on TxState.witnessState (fun t w => { t with witnessState := w })
          fun t => witnesses t.nInputs)
          { t with witnessState :=
              { t.witnessState with witCounter := 0, isCurWitStackElementsRead := false } }
          (ws.flatMap serializeWitness) { t with witnessState := w' } := Consumes.on hrun
      exact ⟨_, hpart.skipIf (by simp [hsegwit, hws]), rfl, rfl⟩
  have hlocktime : Consumes parseRawtxLocktime t1 (leBytes 4 tx.locktime.toNat) _ := consumes_hashBytes
  have hrun := hinit.runFrom (k := k) <| hwitnesses.runFrom <| hlocktime.runFrom <| consumes_runFrom_nil _
  refine ⟨{ t1 with hashed := t1.hashed ++ leBytes 4 tx.locktime.toNat }, ?_, houtputs, hrun.congr (by simp)⟩
  rw [hhashed]

theorem parseRawtxCheckSegwit_legacy (hn : 0 < n) (hlt : n < 2 ^ 64) (rest : Bytes) :
    parseRawtxCheckSegwit t (compactSize n ++ rest)
      = (.done, { t with isSegwit := false }, compactSize n ++ rest) := by
  obtain ⟨b, tail, hb, hcons⟩ : ∃ b tail, b ≠ 0 ∧ compactSize n = b :: tail := by
    simp only [compactSize]
    split_ifs
    · refine ⟨UInt8.ofNat n, [], fun h => ?_, rfl⟩
      have := congrArg UInt8.toNat h
      rw [UInt8.toNat_ofNat'] at this
      simp only [UInt8.toNat_zero] at this
      omega
    · exact ⟨_, _, by decide, rfl⟩
    · exact ⟨_, _, by decide, rfl⟩
    · exact ⟨_, _, by decide, rfl⟩
  simp [hcons, parseRawtxCheckSegwit, ofReader, readSegwitFlag, hb]

theorem consumes_checkSegwit {tx : Tx} {ps : List (Step UInt8 TxState)}
    {b : Bytes} {ks' : Nat × TxState} (hwithin : tx.Within (2 ^ 31))
    (hps : Consumes (runFrom ps) (k + 1, { t with isSegwit := tx.witnesses.isSome })
      (compactSize tx.inputs.length ++ b) ks') :
    Consumes (runFrom (parseRawtxCheckSegwit :: ps)) (k, t)
      ((if tx.witnesses.isSome then [0x00, 0x01] else []) ++ (compactSize tx.inputs.length ++ b))
      ks' := by
  have hinputs := hwithin.inputs
  cases hws : tx.witnesses with
  | none =>
    rw [hws] at hps
    intro rest
    have hpos : 0 < tx.inputs.length := length_pos_iff.mpr (tx.inputs_ne_nil hws)
    have hcheck := parseRawtxCheckSegwit_legacy (t := t) hpos (by omega) (b ++ rest)
    simp only [Option.isSome_none, Bool.false_eq_true, if_false, nil_append, append_assoc, runFrom, hcheck]
    simpa using hps rest
  | some ws =>
    rw [hws] at hps
    have hcheck : Consumes parseRawtxCheckSegwit t [0x00, 0x01] { t with isSegwit := true } := by
      intro rest
      simp [parseRawtxCheckSegwit, ofReader, readSegwitFlag]
    exact hcheck.runFrom hps

/-- **The parser on a whole transaction.** -/
theorem consumes_parseRawtx {tx : Tx} (outputs : TxidParserOutputs)
    (hlength : tx.serialize.length < 2 ^ 31) (ho : tx.outputs[idx]? = some o)
    (hfits : o.scriptPubkey.length ≤ maxPrevoutScriptpubkeyLen) :
    ∃ t', Consumes (run parseRawtxSteps) (0, initialTxState idx outputs) tx.serialize (11, t')
      ∧ t'.hashed = tx.serializeNoWitness ∧ t'.outputs = outputs.select o := by
  have hwithin := Tx.within_of_length_lt hlength
  have hversion : Consumes parseRawtxVersion (initialTxState idx outputs)
      (leBytes 4 tx.version.toNat) _ := consumes_hashBytes
  obtain ⟨t1, hhashed1, hinputs, hsegwit1, hidx1, houtputs1, hphase1⟩ := consumes_inputPhase (k := 2)
    (t := { initialTxState idx outputs with
      hashed := leBytes 4 tx.version.toNat, isSegwit := tx.witnesses.isSome }) hwithin
  obtain ⟨t2, hhashed2, hsegwit2, hinputs2, houtputs2, hphase2⟩ :=
    consumes_outputPhase (k := 5) (t := t1) hwithin hidx1 ho hfits
  obtain ⟨t3, hhashed3, houtputs3, hphase3⟩ := consumes_witnessPhase (k := 8) (t := t2) hwithin
    (by rw [hinputs2, hinputs]) (by rw [hsegwit2, hsegwit1])
  have hrun := Consumes.run <| hversion.runFrom (k := 0) <| consumes_checkSegwit hwithin <|
    (hphase1 _ _ (hphase2 _ _ hphase3)).congr (append_assoc _ _ _)
  refine ⟨t3, hrun.congr ?_, ?_, by rw [houtputs3, houtputs2, houtputs1]; rfl⟩
  · cases hws : tx.witnesses with
    | none => simp [Tx.serialize, Tx.serializeNoWitness, Tx.serializeInOut, hws]
    | some ws => simp [Tx.serialize, Tx.serializeInOut, hws]
  · simp [hhashed3, hhashed2, hhashed1, Tx.serializeNoWitness, Tx.serializeInOut]

/-- However a transaction is cut into pieces, the callback ends with what the parser made of it. -/
theorem foldl_cbProcessData {tx : Tx} (outputs : TxidParserOutputs)
    {pieces : List Bytes} (hpieces : pieces.flatten = tx.serialize)
    (hlength : tx.serialize.length < 2 ^ 31) (ho : tx.outputs[idx]? = some o)
    (hfits : o.scriptPubkey.length ≤ maxPrevoutScriptpubkeyLen) :
    ∃ flow, pieces.foldl cbProcessData (rawtxFlowInit idx outputs) = flow ∧ flow.failed = false
      ∧ flow.state.2.hashed = tx.serializeNoWitness ∧ flow.state.2.outputs = outputs.select o := by
  obtain ⟨t', hrun, hhashed, houtputs⟩ := consumes_parseRawtx outputs hlength ho hfits
  have hstart := hrun []
  rw [append_nil, ← hpieces] at hstart
  obtain ⟨hstate, hfailed⟩ := foldl_feed_done
    (f := rawtxFlowInit idx outputs) (resumes_run resumes_parseRawtxSteps)
    (fun x => run_finished (by decide) t' x) rfl hstart
    (Or.inr (by simp [rawtxFlowInit, run, runFrom, parseRawtxSteps, parseRawtxVersion,
      TxState.hashBytes, reading, ofReader, dbufferReadBytes]))
  refine ⟨_, rfl, hfailed, ?_, ?_⟩
  · rw [← hhashed]
    exact congrArg (fun ks => ks.2.hashed) hstate
  · rw [← houtputs]
    exact congrArg (fun ks => ks.2.outputs) hstate

section

variable (sha256 : Bytes → Digest) (map : MerkleizedMapCommitment) (key : Bytes)

/-- The value of the key that the client streams, without the leading byte of the leaf. -/
def streamedValue (c : Comm) : Bytes :=
  match callGetMerkleizedMapValueHash sha256 map key c with
  | .ok valueHash c1 => (deliveredPreimage (requestMemory valueHash c1) c1.incoming).drop 1
  | .error _ _ => []

def streamStartsWithData (c : Comm) : Bool :=
  match callGetMerkleizedMapValueHash sha256 map key c with
  | .ok valueHash c1 => startsWithData (requestMemory valueHash c1) c1.incoming
  | .error _ _ => false

/-- The bytes are a whole transaction that has the output, and the output's script can be kept. -/
def WholeTransaction (bytes : Bytes) (outputIndex : Int) : Prop :=
  ∃ (tx : Tx) (o : TxOut), bytes = tx.serialize ∧ 0 ≤ outputIndex
    ∧ tx.outputs[outputIndex.toNat]? = some o ∧ o.scriptPubkey.length ≤ maxPrevoutScriptpubkeyLen

/-- The bytes are a whole transaction, and what is returned is its output and its id. -/
def ParsedFaithfully (bytes : Bytes) (outputIndex : Int) (out : TxidParserOutputs) (txid : Digest) : Prop :=
  ∃ (tx : Tx) (o : TxOut), bytes = tx.serialize ∧ 0 ≤ outputIndex ∧ tx.outputs[outputIndex.toNat]? = some o
    ∧ out.voutValue = o.value.toNat
    ∧ out.voutScriptpubkeyLen.toNat = o.scriptPubkey.length
    ∧ o.scriptPubkey.length ≤ maxPrevoutScriptpubkeyLen
    ∧ out.voutScriptpubkey.read 0 o.scriptPubkey.length = o.scriptPubkey
    ∧ txid = sha256 (sha256 tx.serializeNoWitness).bytes

variable {sha256 map key}

theorem callPsbtParseRawtx_ok {outputIndex : Int} {outputs out : TxidParserOutputs} {txid : Digest}
    {c c' : Comm}
    (h : callPsbtParseRawtx sha256 map key outputIndex outputs c = .ok (out, txid) c') :
    ∃ valueHash c1 c2 n flow, callGetMerkleizedMapValueHash sha256 map key c = .ok valueHash c1
      ∧ callStreamPreimage sha256 valueHash (fun _ flow => flow)
          (fun m data flow => cbProcessData flow (m.read data.ptr data.size))
          (rawtxFlowInit outputIndex outputs) c1 = .ok (n, flow) c2
      ∧ out = flow.state.2.outputs ∧ txid = sha256 (sha256 flow.state.2.hashed).bytes := by
  simp only [callPsbtParseRawtx, bind_ok_iff, orRet_ok_iff, require_ok_iff, pure_ok_iff, Prod.mk.injEq] at h
  obtain ⟨valueHash, c1, hlookup, ⟨n, flow⟩, c2, hstream, _, _, ⟨-, rfl⟩, ⟨rfl, rfl⟩, rfl⟩ := h
  exact ⟨valueHash, c1, c2, n, flow, hlookup, hstream, rfl, rfl⟩

theorem TxidParserOutputs.read_select (outputs : TxidParserOutputs) (o : TxOut) :
    (outputs.select o).voutScriptpubkey.read 0 o.scriptPubkey.length = o.scriptPubkey := by
  simp only [TxidParserOutputs.select]
  rw [Memory.read_write_inside _ le_rfl le_rfl]
  simp

/-- **Fidelity of the parsed transaction.** A call that succeeds on a whole transaction, sent with a
first answer that is not empty, has returned its output and its id; and only then, because the call also
succeeds on other bytes. -/
theorem callPsbtParseRawtx_faithful {outputIndex : Int} {outputs out : TxidParserOutputs}
    {txid : Digest} {c c' : Comm}
    (hrun : callPsbtParseRawtx sha256 map key outputIndex outputs c = .ok (out, txid) c') :
    (streamStartsWithData sha256 map key c
        ∧ WholeTransaction (streamedValue sha256 map key c) outputIndex →
      ParsedFaithfully sha256 (streamedValue sha256 map key c) outputIndex out txid)
    ∧ (ParsedFaithfully sha256 (streamedValue sha256 map key c) outputIndex out txid →
      WholeTransaction (streamedValue sha256 map key c) outputIndex) := by
  refine ⟨fun ⟨hstarts, tx, o, hbytes, hnonneg, ho, hfits⟩ => ?_,
    fun ⟨tx, o, hbytes, hnonneg, ho, _, _, hfits, _⟩ => ⟨tx, o, hbytes, hnonneg, ho, hfits⟩⟩
  obtain ⟨valueHash, c1, c2, n, flow, hlookup, hstream, rfl, rfl⟩ := callPsbtParseRawtx_ok hrun
  simp only [streamedValue, streamStartsWithData, hlookup] at hbytes hstarts ⊢
  obtain ⟨first, preimageLen, len, partialLen, cs, hstreamed⟩ := callStreamPreimage_ok sha256 hstream
  obtain ⟨pieces, hpieces, hlength, hflow⟩ := hstreamed.pieces hstarts
  rw [hpieces, hbytes] at hlength
  obtain ⟨idx, rfl⟩ := Int.eq_ofNat_of_zero_le hnonneg
  obtain ⟨flow', hfold, -, hhashed, houtputs⟩ :=
    foldl_cbProcessData outputs (hpieces.trans hbytes) hlength ho hfits
  obtain rfl : flow' = flow := hfold.symm.trans hflow.symm
  refine ⟨tx, o, hbytes, hnonneg, ho, by rw [houtputs]; rfl, ?_, hfits, ?_, by rw [hhashed]⟩
  · rw [houtputs, TxidParserOutputs.select, UInt32.toNat_ofNat']
    rw [maxPrevoutScriptpubkeyLen] at hfits
    omega
  · rw [houtputs, TxidParserOutputs.read_select]

end

namespace PreviousTx

-- the key of the previous transaction in an input's map, which has no other key here
def key : Bytes := [0x00]

def keyLeaf : Digest := .ofNat 0x96a296d224f285c67bee93c30f8a309157f0daa35dc5b87e410b78630a09cfc7

def client (valueLeaf : Digest) (value : Bytes) : Comm :=
  .idle [continueApdu [1, 0], continueApdu (keyLeaf.bytes ++ [0, 0]),
    continueApdu (valueLeaf.bytes ++ [0, 0]),
    continueApdu ([UInt8.ofNat (value.length + 1), 40, 0x00] ++ value.take 39),
    continueApdu ([UInt8.ofNat (value.length - 39), 1] ++ value.drop 39)]

def map (valueLeaf : Digest) : MerkleizedMapCommitment := ⟨1, keyLeaf, valueLeaf⟩

def input : TxIn := ⟨⟨replicate 32 0x11, by decide⟩, 0, [], 0xFFFFFFFF⟩

def returnedOutput (sha256 : Bytes → Digest) (valueLeaf : Digest) (value : Bytes) :
    Option (Nat × UInt32 × Digest) :=
  (returned? (callPsbtParseRawtx sha256 (map valueLeaf) key 0 ⟨0, 0, fun _ => 0⟩)
    (client valueLeaf value)).map fun r => (r.1.voutValue, r.1.voutScriptpubkeyLen, r.2)

theorem run_of_returnedOutput {sha256 : Bytes → Digest} {valueLeaf txid : Digest}
    {value : Bytes} {amount : Nat} {len : UInt32}
    (h : returnedOutput sha256 valueLeaf value = some (amount, len, txid)) :
    ∃ out c', callPsbtParseRawtx sha256 (map valueLeaf) key 0 ⟨0, 0, fun _ => 0⟩
        (client valueLeaf value) = .ok (out, txid) c'
      ∧ out.voutScriptpubkeyLen = len := by
  obtain ⟨⟨out, _⟩, hrun, heq⟩ := Option.map_eq_some_iff.mp h
  simp only [Prod.mk.injEq] at heq
  obtain ⟨-, hlen, rfl⟩ := heq
  exact ⟨out, _, ok_of_returned? hrun, hlen⟩

namespace Segwit

def output : TxOut := ⟨5000, [0x00, 0x14] ++ replicate 20 0x22⟩

def tx : Tx :=
  { version := 2
    inputs := [input]
    outputs := [output]
    witnesses := some [[[0xAA], [0xBB, 0xCC]]]
    locktime := 0
    inputs_ne_nil := by simp
    length_witnesses := by simp }

def valueLeaf : Digest := .ofNat 0x5c06c962dff2aed64f377fe674adb018df57280363f01e50385cc7d5fc3de22b

def firstHash : Digest := .ofNat 0xacf4292638e55c855b66276209468665783dc7ce10a31b157078b6ee0e3bd95d

def txid : Digest := .ofNat 0x3db958af5d84227ced4dfd7abf63943329f66d0adb521221fb9c3d0142a9ebe0

def sha256 : Bytes → Digest := sha256Table [([0x00, 0x00], keyLeaf), (0x00 :: tx.serialize, valueLeaf),
    (tx.serializeNoWitness, firstHash), (firstHash.bytes, txid)]

theorem client_ok : returnedOutput sha256 valueLeaf tx.serialize = some (5000, 22, txid) := by
  decide +kernel

end Segwit

namespace PayToPubkey

-- a script of 35 bytes, one more than the parser keeps
def output : TxOut := ⟨5000, [0x21, 0x02] ++ replicate 32 0x33 ++ [0xAC]⟩

def tx : Tx :=
  { version := 2
    inputs := [input]
    outputs := [output]
    witnesses := none
    locktime := 0
    inputs_ne_nil := by simp
    length_witnesses := by simp }

def valueLeaf : Digest := .ofNat 0xbc9942ee17d058c3d1f27019905ea42aeff387647e4af70463361bf9f1f18f9a

-- the device takes the end of the script for the lock time and hashes three bytes less
def firstHash : Digest := .ofNat 0x80f42b30aafc80083feea45acf74974eb49fe5f4be6babff92d21ed7d2e57e6f

def wrongTxid : Digest := .ofNat 0x977d851d475f711113d5cb4c6c3f9514b6f9be1932ad7f9cca63158398a174b8

def sha256 : Bytes → Digest := sha256Table [([0x00, 0x00], keyLeaf), (0x00 :: tx.serialize, valueLeaf),
    (tx.serialize.take 92, firstHash), (firstHash.bytes, wrongTxid)]

theorem client_ok : returnedOutput sha256 valueLeaf tx.serialize = some (5000, 35, wrongTxid) := by
  decide +kernel

end PayToPubkey

end PreviousTx

open PreviousTx in
/-- A segwit transaction in two parts is parsed to its output and its id. -/
theorem callPsbtParseRawtx_faithful_segwit :
    ∃ out c', callPsbtParseRawtx Segwit.sha256 (map Segwit.valueLeaf) key 0 ⟨0, 0, fun _ => 0⟩
        (client Segwit.valueLeaf Segwit.tx.serialize) = .ok (out, Segwit.txid) c'
      ∧ ParsedFaithfully Segwit.sha256 (streamedValue Segwit.sha256 (map Segwit.valueLeaf) key
          (client Segwit.valueLeaf Segwit.tx.serialize)) 0 out Segwit.txid := by
  obtain ⟨out, c', hrun, -⟩ := run_of_returnedOutput Segwit.client_ok
  refine ⟨out, c', hrun, (callPsbtParseRawtx_faithful hrun).1 ⟨by decide +kernel, ?_⟩⟩
  exact ⟨Segwit.tx, Segwit.output, by decide +kernel, by decide, rfl, by decide⟩

open PreviousTx in
/-- A transaction that pays to a public key: the script is too long to be kept, and the call succeeds
with another transaction's id. -/
theorem not_callPsbtParseRawtx_faithful :
    ¬ ∀ (sha256 : Bytes → Digest) (map : MerkleizedMapCommitment) (key : Bytes)
        (outputIndex : Int) (outputs out : TxidParserOutputs) (txid : Digest) (c c' : Comm),
      callPsbtParseRawtx sha256 map key outputIndex outputs c = .ok (out, txid) c' →
      ParsedFaithfully sha256 (streamedValue sha256 map key c) outputIndex out txid := by
  intro h
  obtain ⟨out, c', hrun, hlen⟩ := run_of_returnedOutput PayToPubkey.client_ok
  obtain ⟨_, o, -, -, -, -, hsame, hfits, -⟩ := h _ _ _ _ _ _ _ _ _ hrun
  rw [← hsame, hlen] at hfits
  exact absurd hfits (by decide)

end LedgerBabylon
