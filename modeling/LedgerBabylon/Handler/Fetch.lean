import LedgerBabylon.Handler.WalletPolicy

/-!
# Fetching and checking

The parts of the handlers that only fetch data from the client and check it. A failed check ends the
command, with a status word or without one.
-/

namespace LedgerBabylon

open Endian Exec

def SW_OK : Nat := 0x9000
def SW_DENY : Nat := 0x6985
def SW_NOT_SUPPORTED : Nat := 0x6A82
def SW_BAD_STATE : Nat := 0xB007

variable {σ τ α : Type}

variable {x : Ask σ α} {s s' : Session σ} {r : Except Int α} {a : α} {code : Int} {e : σ} {sw : Nat}

inductive Failure where
  | status (sw : Nat) (ec : Option Nat)
  | silent
  | fault (f : Fault)

abbrev Fetch (σ : Type) := EStateM Failure (Session σ)

def query (x : Query σ α) : Fetch σ (Except Int α) := fun s =>
  match x s with
  | .ok a s' => .ok (.ok a) s'
  | .error (.ret code) s' => .ok (.error code) s'
  | .error fault s' => .error (.fault fault) s'

def call (x : Ask σ α) : Fetch σ (Except Int α) := query (ask x)

def fail (sw : Nat) : Fetch σ α := throw (.status sw none)

def failEc (sw ec : Nat) : Fetch σ α := throw (.status sw (some ec))

def undefinedBehaviour : Fetch σ α := throw (.fault .undefinedBehaviour)

def noteUses (uses : List ArrayUse) : Fetch σ Unit := modify fun s => { s with uses := s.uses ++ uses }

def okOr (sw : Nat) : Except Int α → Fetch σ α
  | .ok a => return a
  | .error _ => fail sw

def someOr (sw : Nat) : Option α → Fetch σ α
  | some a => return a
  | none => fail sw

def checkOr (sw : Nat) (cond : Bool) : Fetch σ Unit := if cond then pure () else fail sw

theorem query_ok_iff {x : Query σ α} : query x s = .ok r s' ↔
      (∃ a, r = .ok a ∧ x s = .ok a s') ∨ ∃ code, r = .error code ∧ x s = .error (.ret code) s' := by
  unfold query
  cases hx : x s with
  | ok a t =>
    constructor
    · rintro ⟨⟩
      exact .inl ⟨a, rfl, rfl⟩
    · rintro (⟨_, rfl, h⟩ | ⟨_, _, h⟩) <;> cases h
      rfl
  | error fault t =>
    cases fault with
    | ret code =>
      constructor
      · rintro ⟨⟩
        exact .inr ⟨code, rfl, rfl⟩
      · rintro (⟨_, _, h⟩ | ⟨_, rfl, h⟩) <;> cases h
        rfl
    | _ => simp

theorem query_error {x : Query σ α} {failure : Failure}
    (h : query x s = .error failure s') : ∃ f, failure = .fault f := by
  unfold query at h
  split at h <;> cases h
  exact ⟨_, rfl⟩

theorem ask_ok_iff : ask x s = .ok a s' ↔ ∃ e, x s.env = .ok a e ∧ s' = { s with env := e } := by
  unfold ask
  cases hx : x s.env with
  | ok b e => aesop
  | error fault e => simp

theorem ask_error_iff {fault : Fault} :
    ask x s = .error fault s' ↔ ∃ e, x s.env = .error fault e ∧ s' = { s with env := e } := by
  unfold ask
  cases hx : x s.env with
  | ok b e => simp
  | error fault e => aesop

theorem call_of_error
    (h : x s.env = .error (.ret code) e) : call x s = .ok (.error code) { s with env := e } :=
  query_ok_iff.mpr (.inr ⟨code, rfl, ask_error_iff.mpr ⟨e, h, rfl⟩⟩)

theorem askAttempt_of_error (h : x s.env = .error (.ret code) e) :
    ask (attempt x) s = .ok (.error code) { s with env := e } :=
  ask_ok_iff.mpr ⟨e, by simp only [attempt, h], rfl⟩

theorem askAttempt_ok
    (h : ask (attempt x) s = .ok (.ok a) s') : ∃ e, x s.env = .ok a e ∧ s' = { s with env := e } := by
  obtain ⟨e, hx, rfl⟩ := ask_ok_iff.mp h
  refine ⟨e, ?_, rfl⟩
  unfold attempt at hx
  split at hx <;> cases hx
  assumption

@[simp] theorem failSw_ok_iff :
    (fail sw : Fetch σ α) s = .ok a s' ↔ False := throw_ok_iff

@[simp] theorem failEc_ok_iff {ec : Nat} :
    (failEc sw ec : Fetch σ α) s = .ok a s' ↔ False := throw_ok_iff

@[simp] theorem undefinedBehaviour_ok_iff :
    (undefinedBehaviour : Fetch σ α) s = .ok a s' ↔ False := throw_ok_iff

@[simp] theorem okOr_ok_iff :
    okOr sw r s = .ok a s' ↔ r = .ok a ∧ s = s' := by
  cases r <;> simp [okOr]

@[simp] theorem someOr_ok_iff {o : Option α} : someOr sw o s = .ok a s' ↔ o = some a ∧ s = s' := by
  cases o <;> simp [someOr]

@[simp] theorem checkOr_ok_iff {cond : Bool} {u : Unit} :
    checkOr sw cond s = .ok u s' ↔ cond = true ∧ s = s' := by
  cases cond <;> simp [checkOr]

variable (dev : Device σ)

def fetchLen (map : MerkleizedMapCommitment) (key : UInt8) (len : Nat) : Fetch σ (Option Bytes) := do
  match ← call (dev.env.mapValue map [key] len) with
  | .error _ => return none
  | .ok raw => return if raw.length = len then some raw else none

def fetchExact (map : MerkleizedMapCommitment) (key : UInt8) (len sw : Nat) : Fetch σ Bytes := do
  let raw ← fetchLen dev map key len
  someOr sw raw

def masterFingerprint : Fetch σ UInt32 :=
  match dev.crypto.masterKeyFingerprint with
  | none => undefinedBehaviour
  | some fingerprint => return fingerprint

/-- The elements of a tree from `curElIdx` on, which must be in order; `prevEl` is the one before. -/
def checkSortedLoop {m : Type → Type} [Monad m] (element : Nat → m (Except Int Bytes))
    (callback : Nat → Bytes → τ → m τ) : Nat → Nat → Bytes → τ → m (Option τ)
  | 0, _, _, t => return some t
  | n + 1, curElIdx, prevEl, t => do
    match ← element curElIdx with
    | .error _ => return none
    | .ok curEl =>
      if 0 < curElIdx ∧ !byteArrayLt prevEl curEl then return none
      else do
        let t ← callback curElIdx curEl t
        checkSortedLoop element callback n (curElIdx + 1) curEl t

def sortedElement (root : Digest) (size index : Nat) : Fetch σ (Except Int Bytes) :=
  call (dev.env.leafElement root (UInt32.ofNat size) (UInt32.ofNat index)
    maxCheckMerkleTreeSortedPreimageSize)

def callCheckMerkleTreeSorted (root : Digest) (size : Nat) : Fetch σ (Option Unit) :=
  checkSortedLoop (sortedElement dev root (size % 2 ^ 32)) (fun _ _ _ => pure ()) (size % 2 ^ 32) 0 [] ()

def fetchMapCommitment (root : Digest) (size index : Nat) : Fetch σ (Option MerkleizedMapCommitment) := do
  match ← call (dev.env.leafElement root (UInt32.ofNat size) (UInt32.ofNat index) (9 + 2 * 32)) with
  | .error _ => return none
  | .ok raw => return readMapCommitment raw

def callGetMerkleizedMap (root : Digest) (size index : Nat) : Fetch σ (Option MerkleizedMapCommitment) := do
  match ← fetchMapCommitment dev root size index with
  | none => return none
  | some map => do
    let sorted ← callCheckMerkleTreeSorted dev map.keysRoot map.size
    return sorted.map fun _ => map

end LedgerBabylon
