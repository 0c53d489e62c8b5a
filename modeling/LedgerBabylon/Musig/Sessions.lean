import LedgerBabylon.Common.Merkle
import LedgerBabylon.Lib.Slots

/-!
# MuSig2 sessions

A session is the root of the randomness from which all nonces of one transaction are derived. Round 1
creates it in volatile memory, a successful run moves it to a slot of the persistent storage, and round
2 takes it out again. When all slots are in use the first one is overwritten. A root that is used twice
gives away the secret key: over any sequence of runs, a root is handed out in one run only.
-/

namespace LedgerBabylon

open List

structure MusigPsbtSession where
  id : Digest
  randRoot : Digest
  deriving DecidableEq

def MusigPsbtSession.zero : MusigPsbtSession := ⟨.ofNat 0, .ofNat 0⟩

abbrev maxNMusigSessions : Nat := 8

abbrev MusigStorage := Fin maxNMusigSessions → MusigPsbtSession

def MusigStorage.empty : MusigStorage := fun _ => .zero

structure MusigSigningState where
  round1 : MusigPsbtSession
  round2 : MusigPsbtSession
  deriving DecidableEq

/-- `musigsession_pop`: the session with the given id, and the storage without it. -/
def musigsessionPop (psbtSessionId : Digest) (storage : MusigStorage) :
    Option (MusigPsbtSession × MusigStorage) :=
  (Slots.first storage fun session => session.id = psbtSessionId).map fun i =>
    (storage i, Function.update storage i .zero)

def musigsessionDelete : Digest → MusigStorage → MusigStorage := Slots.delete MusigPsbtSession.id .zero

def musigsessionStore : MusigPsbtSession → MusigStorage → MusigStorage :=
  Slots.store MusigPsbtSession.id .zero

def musigsessionInitializeSigningState : MusigSigningState := ⟨.zero, .zero⟩

/-- `musigsession_round1_initialize`: the session, and the memory after the call. Unless round 1 already
has this session, the root is `rand` from the generator. -/
def musigsessionRound1Initialize (psbtSessionId rand : Digest) (state : MusigSigningState)
    (storage : MusigStorage) : MusigPsbtSession × MusigSigningState × MusigStorage :=
  let storage := musigsessionDelete psbtSessionId storage
  if state.round1.id ≠ psbtSessionId then
    let session : MusigPsbtSession := ⟨psbtSessionId, rand⟩
    (session, { state with round1 := session }, storage)
  else (state.round1, state, storage)

/-- `musigsession_round2_initialize`: the session if there is one, and the memory after the call. -/
def musigsessionRound2Initialize (psbtSessionId : Digest) (state : MusigSigningState)
    (storage : MusigStorage) : Option MusigPsbtSession × MusigSigningState × MusigStorage :=
  if state.round2.id ≠ psbtSessionId then
    match musigsessionPop psbtSessionId storage with
    | none => (none, state, storage)
    | some (session, storage) => (some session, { state with round2 := session }, storage)
  else (some state.round2, state, storage)

/-- `musigsession_commit`. The loop that looks for a byte other than zero runs over the id and, past
its end, over the root. -/
def musigsessionCommit (state : MusigSigningState) (storage : MusigStorage) : MusigStorage :=
  if state.round1 ≠ .zero then musigsessionStore state.round1 storage else storage

/-- A call during a signing run. In round 1, `rand` is what the random number generator gives if it is
asked. -/
inductive SessionCall where
  | round1 (psbtSessionId rand : Digest)
  | round2 (psbtSessionId : Digest)

def SessionCall.psbtSessionId : SessionCall → Digest
  | .round1 psbtSessionId _ => psbtSessionId
  | .round2 psbtSessionId => psbtSessionId

structure SessionRun where
  calls : List SessionCall
  commits : Bool

/-- The memory for sessions, with a record of all roots drawn, and of all roots that round 2 handed
out, each with the number of its run. -/
structure SessionMemory where
  storage : MusigStorage
  state : MusigSigningState
  run : Nat
  drawn : List Digest
  handedOut : List (Nat × Digest)

def SessionMemory.new : SessionMemory := ⟨.empty, musigsessionInitializeSigningState, 0, [], []⟩

def SessionCall.exec (m : SessionMemory) : SessionCall → SessionMemory
  | .round1 psbtSessionId rand =>
    let (_, state, storage) := musigsessionRound1Initialize psbtSessionId rand m.state m.storage
    { m with
      storage, state
      drawn := if m.state.round1.id ≠ psbtSessionId then m.drawn ++ [rand] else m.drawn }
  | .round2 psbtSessionId =>
    let (session, state, storage) := musigsessionRound2Initialize psbtSessionId m.state m.storage
    { m with
      storage, state
      handedOut := m.handedOut ++ session.toList.map fun s => (m.run, s.randRoot) }

def SessionMemory.begin (m : SessionMemory) : SessionMemory :=
  { m with state := musigsessionInitializeSigningState, run := m.run + 1 }

def SessionMemory.commit (m : SessionMemory) : SessionMemory :=
  { m with storage := musigsessionCommit m.state m.storage }

def SessionRun.exec (m : SessionMemory) (run : SessionRun) : SessionMemory :=
  let m := run.calls.foldl SessionCall.exec m.begin
  if run.commits then m.commit else m

def SessionMemory.after (runs : List SessionRun) : SessionMemory := runs.foldl SessionRun.exec .new

def MusigStorage.Lacks (storage : MusigStorage) (root : Digest) : Prop := ∀ i, (storage i).randRoot ≠ root

theorem MusigStorage.Lacks.shrinks {storage storage' : MusigStorage} {root : Digest}
    (h : storage.Lacks root) (hroot : root ≠ .ofNat 0)
    (hshrinks : Slots.Shrinks .zero storage storage') : storage'.Lacks root := by
  intro i
  rcases hshrinks i with hi | hi
  · rw [hi]
    exact h i
  · rw [hi]
    exact hroot.symm

structure StorageOk (storage : MusigStorage) (drawn : List Digest) (handedOut : List (Nat × Digest)) :
    Prop where
  ids : Slots.KeysDistinct MusigPsbtSession.id .zero storage
  roots : Slots.KeysDistinct MusigPsbtSession.randRoot .zero storage
  stored : ∀ i, storage i = .zero ∨ (storage i).randRoot ∈ drawn
  handed_drawn : ∀ run root, (run, root) ∈ handedOut → root ∈ drawn
  handed_lacks : ∀ run root, (run, root) ∈ handedOut → storage.Lacks root
  once : ∀ j k root, (j, root) ∈ handedOut → (k, root) ∈ handedOut → j = k

structure PendingOk (storage : MusigStorage) (drawn : List Digest) (handedOut : List (Nat × Digest))
    (session : MusigPsbtSession) : Prop where
  id_ne : session.id ≠ .ofNat 0
  drawn : session.randRoot ∈ drawn
  lacks : storage.Lacks session.randRoot
  not_handed : ∀ run, (run, session.randRoot) ∉ handedOut

section

variable {storage storage' : MusigStorage} {drawn : List Digest} {handedOut : List (Nat × Digest)}
  {session : MusigPsbtSession} {run : Nat}

theorem StorageOk.empty : StorageOk .empty [] [] where
  ids := fun _ _ _ hne => absurd rfl hne
  roots := fun _ _ _ hne => absurd rfl hne
  stored := fun _ => .inl rfl
  handed_drawn := by simp
  handed_lacks := by simp
  once := by simp

theorem StorageOk.shrinks (h : StorageOk storage drawn handedOut) (hzero : Digest.ofNat 0 ∉ drawn)
    (hshrinks : Slots.Shrinks .zero storage storage') : StorageOk storage' drawn handedOut where
  ids := h.ids.shrinks hshrinks
  roots := h.roots.shrinks hshrinks
  stored := by
    intro i
    rcases hshrinks i with hi | hi
    · rw [hi]
      exact h.stored i
    · exact .inl hi
  handed_drawn := h.handed_drawn
  handed_lacks := by
    intro run root hmem
    apply (h.handed_lacks run root hmem).shrinks _ hshrinks
    exact ne_of_mem_of_not_mem (h.handed_drawn run root hmem) hzero
  once := h.once

theorem PendingOk.shrinks (h : PendingOk storage drawn handedOut session)
    (hzero : Digest.ofNat 0 ∉ drawn) (hshrinks : Slots.Shrinks .zero storage storage') :
    PendingOk storage' drawn handedOut session :=
  { h with lacks := h.lacks.shrinks (ne_of_mem_of_not_mem h.drawn hzero) hshrinks }

theorem StorageOk.draw (h : StorageOk storage drawn handedOut) (rand : Digest) :
    StorageOk storage (drawn ++ [rand]) handedOut :=
  { h with
    stored := fun i => (h.stored i).imp_right (mem_append_left _)
    handed_drawn := fun run root hmem => mem_append_left _ (h.handed_drawn run root hmem) }

theorem StorageOk.pending_draw (h : StorageOk storage drawn handedOut) {psbtSessionId rand : Digest}
    (hid : psbtSessionId ≠ .ofNat 0) (hnodup : (drawn ++ [rand]).Nodup)
    (hzero : Digest.ofNat 0 ∉ drawn ++ [rand]) :
    PendingOk storage (drawn ++ [rand]) handedOut ⟨psbtSessionId, rand⟩ := by
  have hlast : rand ∈ drawn ++ [rand] := mem_append_right _ (mem_singleton_self rand)
  have hnew : rand ∉ drawn := by
    intro hmem
    exact disjoint_of_nodup_append hnodup hmem (mem_singleton_self rand)
  refine ⟨hid, hlast, ?_, fun run hmem => hnew (h.handed_drawn run rand hmem)⟩
  intro i
  rcases h.stored i with hi | hi
  · rw [hi]
    exact (ne_of_mem_of_not_mem hlast hzero).symm
  · exact ne_of_mem_of_not_mem hi hnew

theorem StorageOk.lacks_update (h : StorageOk storage drawn handedOut)
    (hzero : Digest.ofNat 0 ∉ drawn) {slot : Fin maxNMusigSessions} (hslot : storage slot ≠ .zero) :
    MusigStorage.Lacks (Function.update storage slot .zero) (storage slot).randRoot := by
  have hne : (storage slot).randRoot ≠ .ofNat 0 :=
    ne_of_mem_of_not_mem ((h.stored slot).resolve_left hslot) hzero
  intro i hroot
  by_cases hi : i = slot
  · rw [hi, Function.update_self] at hroot
    exact hne hroot.symm
  · rw [Function.update_of_ne hi] at hroot
    exact hi (h.roots i slot hroot (by rw [hroot]; exact hne))

theorem StorageOk.pop (h : StorageOk storage drawn handedOut) (hzero : Digest.ofNat 0 ∉ drawn)
    {slot : Fin maxNMusigSessions} (hslot : storage slot ≠ .zero) :
    StorageOk (Function.update storage slot .zero) drawn (handedOut ++ [(run, (storage slot).randRoot)]) := by
  have hrest := h.shrinks hzero (Slots.shrinks_update storage slot)
  have hnew : ∀ run, (run, (storage slot).randRoot) ∉ handedOut := by
    intro run hmem
    exact h.handed_lacks run _ hmem slot rfl
  refine { hrest with handed_drawn := ?_, handed_lacks := ?_, once := ?_ }
  · intro run root hmem
    rcases mem_append.mp hmem with hold | hlast
    · exact h.handed_drawn run root hold
    · obtain ⟨-, rfl⟩ := Prod.mk.inj (mem_singleton.mp hlast)
      exact (h.stored slot).resolve_left hslot
  · intro run root hmem
    rcases mem_append.mp hmem with hold | hlast
    · exact hrest.handed_lacks run root hold
    · obtain ⟨-, rfl⟩ := Prod.mk.inj (mem_singleton.mp hlast)
      exact h.lacks_update hzero hslot
  · intro j k root hj hk
    rcases mem_append.mp hj with hj | hj <;> rcases mem_append.mp hk with hk | hk
    · exact h.once j k root hj hk
    · obtain ⟨-, rfl⟩ := Prod.mk.inj (mem_singleton.mp hk)
      exact absurd hj (hnew j)
    · obtain ⟨-, rfl⟩ := Prod.mk.inj (mem_singleton.mp hj)
      exact absurd hk (hnew k)
    · rw [(Prod.mk.inj (mem_singleton.mp hj)).1, (Prod.mk.inj (mem_singleton.mp hk)).1]

theorem PendingOk.pop (h : PendingOk storage drawn handedOut session)
    (hzero : Digest.ofNat 0 ∉ drawn) (slot : Fin maxNMusigSessions) :
    PendingOk (Function.update storage slot .zero) drawn
      (handedOut ++ [(run, (storage slot).randRoot)]) session := by
  refine { h.shrinks hzero (Slots.shrinks_update storage slot) with not_handed := ?_ }
  intro run hmem
  rcases mem_append.mp hmem with hold | hlast
  · exact h.not_handed run hold
  · exact h.lacks slot (Prod.mk.inj (mem_singleton.mp hlast)).2.symm

theorem StorageOk.hand_again (h : StorageOk storage drawn handedOut) {entry : Nat × Digest}
    (hentry : entry ∈ handedOut) : StorageOk storage drawn (handedOut ++ [entry]) := by
  have hmem : ∀ e, e ∈ handedOut ++ [entry] → e ∈ handedOut := by
    intro e he
    rcases mem_append.mp he with hold | hlast
    · exact hold
    · rwa [mem_singleton.mp hlast]
  exact { h with
    handed_drawn := fun run root he => h.handed_drawn run root (hmem _ he)
    handed_lacks := fun run root he => h.handed_lacks run root (hmem _ he)
    once := fun j k root hj hk => h.once j k root (hmem _ hj) (hmem _ hk) }

theorem PendingOk.hand_again (h : PendingOk storage drawn handedOut session) {entry : Nat × Digest}
    (hentry : entry ∈ handedOut) : PendingOk storage drawn (handedOut ++ [entry]) session := by
  refine { h with not_handed := fun run hmem => ?_ }
  rcases mem_append.mp hmem with hold | hlast
  · exact h.not_handed run hold
  · exact h.not_handed run (mem_singleton.mp hlast ▸ hentry)

theorem StorageOk.store (h : StorageOk storage drawn handedOut)
    (hpending : PendingOk storage drawn handedOut session) (hzero : Digest.ofNat 0 ∉ drawn) :
    StorageOk (musigsessionStore session storage) drawn handedOut := by
  have hdelete := Slots.shrinks_delete MusigPsbtSession.id .zero session.id storage
  have hrest := h.shrinks hzero hdelete
  have hlacks := (hpending.shrinks hzero hdelete).lacks
  have hids := h.ids.store hpending.id_ne
  obtain ⟨slot, heq⟩ := Slots.store_eq_update MusigPsbtSession.id .zero session storage
  rw [musigsessionStore]
  rw [heq] at hids ⊢
  refine ⟨hids, hrest.roots.update hlacks slot, ?_, h.handed_drawn, ?_, h.once⟩
  · intro i
    by_cases hi : i = slot
    · rw [hi, Function.update_self]
      exact .inr hpending.drawn
    · rw [Function.update_of_ne hi]
      exact hrest.stored i
  · intro run root hmem i
    by_cases hi : i = slot
    · rw [hi, Function.update_self]
      intro hroot
      exact hpending.not_handed run (hroot ▸ hmem)
    · rw [Function.update_of_ne hi]
      exact hrest.handed_lacks run root hmem i

end

namespace SessionMemory

def Fresh (m : SessionMemory) : Prop := m.drawn.Nodup ∧ Digest.ofNat 0 ∉ m.drawn

def Ok (m : SessionMemory) : Prop := StorageOk m.storage m.drawn m.handedOut

structure RunOk (m : SessionMemory) : Prop where
  ok : m.Ok
  round1 : m.state.round1 = .zero ∨ PendingOk m.storage m.drawn m.handedOut m.state.round1
  round2 : m.state.round2 = .zero ∨ (m.run, m.state.round2.randRoot) ∈ m.handedOut

theorem Fresh.of_prefix {m m' : SessionMemory} (h : m'.Fresh) (hdrawn : m.drawn <+: m'.drawn) : m.Fresh :=
  ⟨h.1.sublist hdrawn.sublist, fun hmem => h.2 (hdrawn.subset hmem)⟩

end SessionMemory

open SessionMemory

variable {m : SessionMemory}

theorem SessionCall.exec_round1 (psbtSessionId rand : Digest) :
    (SessionCall.round1 psbtSessionId rand).exec m = if m.state.round1.id ≠ psbtSessionId then
          { m with
            storage := musigsessionDelete psbtSessionId m.storage
            state := { m.state with round1 := ⟨psbtSessionId, rand⟩ }
            drawn := m.drawn ++ [rand] }
        else { m with storage := musigsessionDelete psbtSessionId m.storage } := by
  simp only [SessionCall.exec, musigsessionRound1Initialize]
  split_ifs <;> rfl

/-- What round 2 leaves in memory: it hands out the session it already has, or one of the storage, or
none. -/
theorem SessionCall.exec_round2 (psbtSessionId : Digest) :
    (m.state.round2.id = psbtSessionId ∧ (SessionCall.round2 psbtSessionId).exec m
        = { m with handedOut := m.handedOut ++ [(m.run, m.state.round2.randRoot)] })
      ∨ (∃ slot, (m.storage slot).id = psbtSessionId ∧ (SessionCall.round2 psbtSessionId).exec m
        = { m with
            storage := Function.update m.storage slot .zero
            state := { m.state with round2 := m.storage slot }
            handedOut := m.handedOut ++ [(m.run, (m.storage slot).randRoot)] })
      ∨ (SessionCall.round2 psbtSessionId).exec m = m := by
  simp only [SessionCall.exec, musigsessionRound2Initialize, musigsessionPop]
  by_cases hid : m.state.round2.id = psbtSessionId
  · exact .inl ⟨hid, by simp [hid]⟩
  · rcases hfirst : Slots.first m.storage (fun session => session.id = psbtSessionId) with _ | slot
    · exact .inr (.inr (by simp [hid]))
    · have hslot := Slots.of_first_eq_some hfirst
      exact .inr (.inl ⟨slot, by simpa using hslot, by simp [hid]⟩)

theorem SessionCall.drawn_prefix_exec (call : SessionCall) : m.drawn <+: (call.exec m).drawn := by
  cases call with
  | round1 psbtSessionId rand =>
    rw [exec_round1]
    split_ifs
    · exact prefix_append ..
    · exact prefix_rfl
  | round2 psbtSessionId => exact prefix_rfl

theorem SessionMemory.RunOk.exec_round1 (h : m.RunOk) {psbtSessionId rand : Digest} (hid : psbtSessionId ≠ .ofNat 0)
    (hfresh : ((SessionCall.round1 psbtSessionId rand).exec m).Fresh) :
    ((SessionCall.round1 psbtSessionId rand).exec m).RunOk := by
  have hzero := (hfresh.of_prefix (SessionCall.drawn_prefix_exec _)).2
  have hdelete := Slots.shrinks_delete MusigPsbtSession.id .zero psbtSessionId m.storage
  have hok := h.ok.shrinks hzero hdelete
  rw [SessionCall.exec_round1] at hfresh ⊢
  split_ifs at hfresh ⊢ with hnew
  · exact ⟨hok.draw rand, .inr (hok.pending_draw hid hfresh.1 hfresh.2), h.round2⟩
  · exact ⟨hok, h.round1.imp_right fun hpending => hpending.shrinks hzero hdelete, h.round2⟩

theorem SessionMemory.RunOk.exec_round2 (h : m.RunOk) {psbtSessionId : Digest} (hid : psbtSessionId ≠ .ofNat 0)
    (hfresh : ((SessionCall.round2 psbtSessionId).exec m).Fresh) :
    ((SessionCall.round2 psbtSessionId).exec m).RunOk := by
  have hzero := (hfresh.of_prefix (SessionCall.drawn_prefix_exec _)).2
  -- a session with an id other than zero is not the session of zeros
  have hne : ∀ session : MusigPsbtSession, session.id = psbtSessionId → session ≠ .zero := by
    rintro session hsession rfl
    exact hid hsession.symm
  rcases SessionCall.exec_round2 psbtSessionId with ⟨hsame, hexec⟩ | ⟨slot, hslot, hexec⟩ | hexec
  · have hentry := h.round2.resolve_left (hne _ hsame)
    rw [hexec]
    exact ⟨h.ok.hand_again hentry, h.round1.imp_right fun hpending => hpending.hand_again hentry,
      .inr (mem_append_left _ hentry)⟩
  · rw [hexec]
    exact ⟨h.ok.pop hzero (hne _ hslot), h.round1.imp_right fun hpending => hpending.pop hzero slot,
      .inr (mem_append_right _ (mem_singleton_self _))⟩
  · rw [hexec]
    exact h

theorem SessionMemory.RunOk.exec (h : m.RunOk) {call : SessionCall} (hid : call.psbtSessionId ≠ .ofNat 0)
    (hfresh : (call.exec m).Fresh) : (call.exec m).RunOk := by
  cases call with
  | round1 psbtSessionId rand => exact h.exec_round1 hid hfresh
  | round2 psbtSessionId => exact h.exec_round2 hid hfresh

theorem drawn_prefix_calls (calls : List SessionCall) (m : SessionMemory) :
    m.drawn <+: (calls.foldl SessionCall.exec m).drawn := by
  induction calls generalizing m with
  | nil => exact prefix_rfl
  | cons call calls ih => exact call.drawn_prefix_exec.trans (ih (call.exec m))

theorem SessionMemory.RunOk.calls {calls : List SessionCall} (hids : ∀ call ∈ calls, call.psbtSessionId ≠ .ofNat 0)
    (h : m.RunOk) (hfresh : (calls.foldl SessionCall.exec m).Fresh) :
    (calls.foldl SessionCall.exec m).RunOk := by
  induction calls generalizing m with
  | nil => exact h
  | cons call calls ih =>
    have hstep : (call.exec m).Fresh := hfresh.of_prefix (drawn_prefix_calls calls (call.exec m))
    apply ih (fun c hc => hids c (mem_cons_of_mem _ hc)) _ hfresh
    exact h.exec (hids call mem_cons_self) hstep

theorem SessionMemory.Ok.begin (h : m.Ok) : m.begin.RunOk := ⟨h, .inl rfl, .inl rfl⟩

theorem SessionMemory.RunOk.commit (h : m.RunOk) (hfresh : m.Fresh) : m.commit.Ok := by
  simp only [SessionMemory.commit, SessionMemory.Ok, musigsessionCommit]
  split_ifs with hround1
  · exact h.ok.store (h.round1.resolve_left hround1) hfresh.2
  · exact h.ok

theorem SessionRun.drawn_exec (run : SessionRun) :
    (run.exec m).drawn = (run.calls.foldl SessionCall.exec m.begin).drawn := by
  simp only [SessionRun.exec]
  split_ifs <;> rfl

theorem SessionMemory.Ok.exec (h : m.Ok) {run : SessionRun}
    (hids : ∀ call ∈ run.calls, call.psbtSessionId ≠ .ofNat 0) (hfresh : (run.exec m).Fresh) :
    (run.exec m).Ok := by
  have hcalls : (run.calls.foldl SessionCall.exec m.begin).Fresh :=
    hfresh.of_prefix (by simp [run.drawn_exec])
  have hrun := RunOk.calls hids h.begin hcalls
  simp only [SessionRun.exec]
  split_ifs
  · exact hrun.commit hcalls
  · exact hrun.ok

theorem drawn_prefix_runs (runs : List SessionRun) (m : SessionMemory) :
    m.drawn <+: (runs.foldl SessionRun.exec m).drawn := by
  induction runs generalizing m with
  | nil => exact prefix_rfl
  | cons run runs ih =>
    have hrun : m.drawn <+: (run.exec m).drawn := by
      rw [run.drawn_exec]
      exact drawn_prefix_calls run.calls m.begin
    exact hrun.trans (ih (run.exec m))

theorem SessionMemory.Ok.runs {runs : List SessionRun}
    (hids : ∀ run ∈ runs, ∀ call ∈ run.calls, call.psbtSessionId ≠ .ofNat 0) (h : m.Ok)
    (hfresh : (runs.foldl SessionRun.exec m).Fresh) : (runs.foldl SessionRun.exec m).Ok := by
  induction runs generalizing m with
  | nil => exact h
  | cons run runs ih =>
    have hrun : (run.exec m).Fresh := hfresh.of_prefix (drawn_prefix_runs runs (run.exec m))
    apply ih (fun r hr => hids r (mem_cons_of_mem _ hr)) _ hfresh
    exact h.exec (hids run mem_cons_self) hrun

/-- With a random number generator that never repeats itself, no root is handed out in two runs, those
handed out are in no slot, and no id is in two slots. Every moment of a history is the end of a shorter
one. -/
theorem musigsessionRoots_handed_out_once (runs : List SessionRun)
    (hids : ∀ run ∈ runs, ∀ call ∈ run.calls, call.psbtSessionId ≠ .ofNat 0)
    (hfresh : (SessionMemory.after runs).Fresh) :
    (∀ j k root, (j, root) ∈ (SessionMemory.after runs).handedOut →
        (k, root) ∈ (SessionMemory.after runs).handedOut → j = k)
      ∧ (∀ run root, (run, root) ∈ (SessionMemory.after runs).handedOut →
        ∀ i, ((SessionMemory.after runs).storage i).randRoot ≠ root)
      ∧ ∀ i j, ((SessionMemory.after runs).storage i).id = ((SessionMemory.after runs).storage j).id →
        ((SessionMemory.after runs).storage i).id ≠ .ofNat 0 → i = j := by
  have hok : (SessionMemory.after runs).Ok := Ok.runs hids StorageOk.empty hfresh
  exact ⟨hok.once, hok.handed_lacks, hok.ids⟩

/-- Two sessions are made and committed; a third run uses the second and makes the first again. -/
def threeRuns : List SessionRun := [⟨[.round1 (.ofNat 1) (.ofNat 5), .round1 (.ofNat 1) (.ofNat 6)], true⟩,
    ⟨[.round1 (.ofNat 2) (.ofNat 7), .round2 (.ofNat 3)], true⟩,
    ⟨[.round2 (.ofNat 2), .round1 (.ofNat 1) (.ofNat 8), .round2 (.ofNat 2)], true⟩]

theorem threeRuns_handed_out_once : (SessionMemory.after threeRuns).handedOut = [(3, .ofNat 7), (3, .ofNat 7)]
      ∧ (∀ run root, (run, root) ∈ (SessionMemory.after threeRuns).handedOut →
        ∀ i, ((SessionMemory.after threeRuns).storage i).randRoot ≠ root) := by
  refine ⟨by decide +kernel, (musigsessionRoots_handed_out_once threeRuns ?_ ?_).2.1⟩
  · decide +kernel
  · simp only [SessionMemory.Fresh]
    decide +kernel

end LedgerBabylon
