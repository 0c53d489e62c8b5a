import LedgerBabylon.Handler.Fetch
import LedgerBabylon.Lib.Within

/-!
# What reading key infos does to a session

Whatever is computed from a policy reads key infos and nothing else. The uses of arrays that this adds
to a session come from key infos that the client answered with, or from errors of the fetch that are
taken for a length.
-/

namespace LedgerBabylon

open Exec

variable {σ α : Type}

def Answered (x : Ask σ α) (a : α) : Prop := ∃ e e', x e = .ok a e'

def Refused (x : Ask σ α) (code : Int) : Prop := ∃ e e', x e = .error (.ret code) e'

def Outcome (x : Ask σ α) : Except Int α → Prop
  | .ok a => Answered x a
  | .error code => Refused x code

def Uses (J : ArrayUse → Prop) (s s' : Session σ) : Prop := ∃ us, s'.uses = s.uses ++ us ∧ ∀ u ∈ us, J u

instance (J : ArrayUse → Prop) : Evolution (Uses J : Session σ → Session σ → Prop) where
  refl s := ⟨[], by simp⟩
  trans := by
    rintro s s' s'' ⟨us, hus, hJ⟩ ⟨us', hus', hJ'⟩
    refine ⟨us ++ us', by rw [hus', hus, List.append_assoc], fun u hu => ?_⟩
    exact (List.mem_append.mp hu).elim (hJ u) (hJ' u)

theorem Uses.mono {J J' : ArrayUse → Prop} (hJ : ∀ u, J u → J' u) {s s' : Session σ}
    (h : Uses J s s') : Uses J' s s' := by
  obtain ⟨us, hus, h⟩ := h
  exact ⟨us, hus, fun u hu => hJ u (h u hu)⟩

theorem Uses.of_eq {J : ArrayUse → Prop} {s s' : Session σ} (h : s'.uses = s.uses) : Uses J s s' :=
  ⟨[], by simp [h], by simp⟩

/-- A program adds uses of the kind `J` only, leaves a cache of the kind `C` so, and returns a value
with property `P`. -/
abbrev Reads {ε : Type} (C : SignPsbtCache → Prop) (J : ArrayUse → Prop) (P : α → Prop)
    (x : EStateM ε (Session σ) α) : Prop :=
  Within (fun s => C s.cache) (Uses J) P x

variable {C : SignPsbtCache → Prop} {J : ArrayUse → Prop}

theorem reads_ask (x : Ask σ α) : Reads C J (Answered x) (ask x) := by
  intro s hs
  unfold ask
  cases hx : x s.env with
  | ok a e => exact ⟨.of_eq rfl, hs, s.env, e, hx⟩
  | error fault e => exact ⟨.of_eq rfl, hs⟩

theorem outcome_of_answered_attempt {x : Ask σ α} {a : Except Int α}
    (h : Answered (attempt x) a) : Outcome x a := by
  obtain ⟨e, e', h⟩ := h
  unfold attempt at h
  split at h <;> cases h
  · exact ⟨e, e', ‹_›⟩
  · exact ⟨e, e', ‹_›⟩

theorem reads_askAttempt (x : Ask σ α) : Reads C J (Outcome x) (ask (attempt x)) :=
  (reads_ask _).mono fun _ => outcome_of_answered_attempt

theorem reads_useArrays {uses : List ArrayUse} (h : ∀ u ∈ uses, J u) :
    Reads C J (fun _ => True) (useArrays uses : Query σ Unit) :=
  Within.modify fun _ hs => ⟨⟨uses, rfl, h⟩, hs⟩

theorem reads_ofOption (o : Option α) : Reads C J (o = some ·) (ofOption o : Query σ α) := by
  cases o with
  | none => exact .throw
  | some a => exact .pure rfl

variable (dev : Device σ) (version : Nat) (root : Digest) (nKeys : Nat)

def KeyInfoAnswered (info : Bytes) : Prop :=
  ∃ index, Answered (dev.env.leafElement root (UInt32.ofNat nKeys) index maxPolicyKeyInfoLen) info

inductive KeyInfoUse : ArrayUse → Prop
  | length {info : Bytes} (h : KeyInfoAnswered dev root nKeys info) : KeyInfoUse (.keyInfo info.length)
  | step {info : Bytes} {position : Nat} (h : KeyInfoAnswered dev root nKeys info)
      (hposition : position < keyInfoStepsWritten dev.crypto.sha256 version info) :
      KeyInfoUse (.originStep position)
  | error {index : UInt32} {code : Int} (hcode : code ≠ -1)
      (h : Refused (dev.env.leafElement root (UInt32.ofNat nKeys) index maxPolicyKeyInfoLen) code) :
      KeyInfoUse (.keyInfo (errorAsLength code))

variable {dev version root nKeys}

theorem reads_parseKeyInfo {info : Bytes} (h : KeyInfoAnswered dev root nKeys info) :
    Reads C (KeyInfoUse dev version root nKeys)
      (fun result => parsePolicyMapKeyInfo dev.crypto.sha256 version info = some result)
      (parseKeyInfo dev version info) := by
  unfold parseKeyInfo
  refine .bind (reads_useArrays ?_) fun _ _ => ?_
  · intro u hu
    rcases List.mem_cons.mp hu with rfl | hu
    · exact .length h
    · obtain ⟨position, hposition, rfl⟩ := List.mem_map.mp hu
      exact .step h (List.mem_range.mp hposition)
  · cases hparse : parsePolicyMapKeyInfo dev.crypto.sha256 version info with
    | none => exact .throw
    | some result => exact .pure rfl

theorem reads_fetchKeyInfo (keyIndex : Nat) : Reads C (KeyInfoUse dev version root nKeys)
      (fun result => ∃ info, Answered (dev.env.leafElement root (UInt32.ofNat nKeys)
          (UInt32.ofNat keyIndex) maxPolicyKeyInfoLen) info ∧
        parsePolicyMapKeyInfo dev.crypto.sha256 version info = some result)
      (fetchKeyInfo dev version root nKeys keyIndex) := by
  unfold fetchKeyInfo
  refine .bind (reads_askAttempt _) fun answer hanswer => ?_
  cases answer with
  | ok info => exact (reads_parseKeyInfo ⟨_, hanswer⟩).mono fun _ hparse => ⟨info, hanswer, hparse⟩
  | error code =>
    refine .ite (fun _ => Within.throw) fun hcode => ?_
    refine .bind (reads_useArrays ?_) fun _ _ => Within.throw
    exact List.forall_mem_singleton.mpr (.error hcode hanswer)

end LedgerBabylon
