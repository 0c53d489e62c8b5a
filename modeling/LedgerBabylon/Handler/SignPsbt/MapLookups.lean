import LedgerBabylon.Handler.FetchFailures
import LedgerBabylon.Handler.LeafFetches
import LedgerBabylon.Handler.SignPsbt.EnvironmentInvariants
import LedgerBabylon.Handler.SignPsbt.Flow

/-!
# Lookups in merkleized maps

Before a map is used, the device goes through its keys and checks that they are in order. After that a
key has one value, and it is one of those that the device has seen. The second does not hold of a map
without keys: an empty proof shows for any index that the root is a leaf, so that the one key whose
leaf is the root can be looked up.
-/

namespace LedgerBabylon

variable {n i : Nat} {prev : Bytes} {els : List Bytes} {w w' : World FetchLog}

open Exec HashPath List

theorem byteArrayLt_iff {a b : Bytes} : byteArrayLt a b ↔ a < b := by
  induction a generalizing b with
  | nil => cases b <;> simp [byteArrayLt]
  | cons x a ih =>
    cases b with
    | nil => simp [byteArrayLt]
    | cons y b => simp [byteArrayLt, ih, cons_lt_cons_iff]

section

variable {ε ς τ : Type} {element : Nat → EStateM ε ς (Except Int Bytes)}
  {callback : Nat → Bytes → τ → EStateM ε ς τ}

/-- A run of the loop that ends well, with the elements that it passes to the callback. -/
inductive Enumerates (element : Nat → EStateM ε ς (Except Int Bytes))
    (callback : Nat → Bytes → τ → EStateM ε ς τ) :
    Nat → Nat → Bytes → τ → ς → List Bytes → τ → ς → Prop
  | nil {i : Nat} {prev : Bytes} {t : τ} {s : ς} : Enumerates element callback 0 i prev t s [] t s
  | cons {n i : Nat} {prev el : Bytes} {t t1 t' : τ} {s s1 s2 s' : ς} {els : List Bytes}
      (helement : element i s = .ok (.ok el) s1) (horder : 0 < i → prev < el)
      (hcallback : callback i el t s1 = .ok t1 s2)
      (hrest : Enumerates element callback n (i + 1) el t1 s2 els t' s') :
      Enumerates element callback (n + 1) i prev t s (el :: els) t' s'

variable {t t' : τ}

theorem checkSortedLoop_ok_iff {s s' : ς} : checkSortedLoop element callback n i prev t s = .ok (some t') s' ↔
      ∃ els, Enumerates element callback n i prev t s els t' s' := by
  constructor
  · intro h
    induction n generalizing i prev t s with
    | zero =>
      obtain ⟨heq, rfl⟩ := pure_ok h
      cases heq
      exact ⟨[], .nil⟩
    | succ n ih =>
      obtain ⟨answer, s1, helement, h⟩ := bind_ok h
      cases answer with
      | error code => simp at h
      | ok el =>
        simp only at h
        split at h
        · simp at h
        · rename_i horder
          obtain ⟨t1, s2, hcallback, h⟩ := bind_ok h
          obtain ⟨els, hrest⟩ := ih h
          refine ⟨el :: els, .cons helement ?_ hcallback hrest⟩
          intro hi
          rw [← byteArrayLt_iff]
          simpa [hi] using horder
  · rintro ⟨els, h⟩
    induction h with
    | nil => rfl
    | @cons n i prev el t t1 t' s s1 s2 s' els helement horder hcallback hrest ih =>
      have hnot : ¬(0 < i ∧ (!byteArrayLt prev el)) := by
        rintro ⟨hi, hlt⟩
        rw [byteArrayLt_iff.mpr (horder hi)] at hlt
        cases hlt
      rw [checkSortedLoop, bind_of_ok helement]
      simp only [if_neg hnot]
      rw [bind_of_ok hcallback, ih]

theorem Enumerates.length_eq {s s' : ς}
    (h : Enumerates element callback n i prev t s els t' s') : els.length = n := by
  induction h with
  | nil => rfl
  | cons _ _ _ _ ih => rw [length_cons, ih]

theorem Enumerates.isChain {s s' : ς} (h : Enumerates element callback n i prev t s els t' s') :
    els.IsChain (· < ·) ∧ (0 < i → (prev :: els).IsChain (· < ·)) := by
  induction h with
  | nil => exact ⟨.nil, fun _ => .singleton _⟩
  | cons _ horder _ _ ih =>
    have htail := ih.2 (Nat.succ_pos _)
    exact ⟨htail, fun hi => .cons_cons (horder hi) htail⟩

theorem Enumerates.nodup {s s' : ς} (h : Enumerates element callback n i prev t s els t' s') : els.Nodup := by
  apply (isChain_iff_pairwise.mp h.isChain.1).imp
  rintro a b hlt rfl
  exact List.lt_irrefl a hlt

end

def Device.logged (dev : Device Outside) : Device FetchLog :=
  { dev with env := dev.env.logged dev.crypto.sha256 }

section

open FetchLog

variable {τ : Type} {dev : Device Outside}

abbrev keyElement (dev : Device Outside) (map : MerkleizedMapCommitment) (i : Nat) :
    Sign FetchLog (Except Int Bytes) :=
  fetch dev.logged (sortedElement dev.logged map.keysRoot (map.size % 2 ^ 32) i)

theorem fetch_call_ok {α σ : Type} {dev : Device σ} {x : Ask σ α} {a : α} {w w' : World σ}
    (h : fetch dev (call x) w = .ok (.ok a) w') : x w.session.env = .ok a w'.session.env := by
  obtain ⟨s, hcall, rfl⟩ := fetch_ok_iff.mp h
  rcases query_ok_iff.mp hcall with ⟨b, heq, hask⟩ | ⟨code, heq, -⟩
  · cases heq
    obtain ⟨e, hx, rfl⟩ := ask_ok_iff.mp hask
    exact hx
  · cases heq

def Recorded (sha256 : Bytes → Digest)
    (callback : MerkleizedMapCommitment → Nat → Bytes → τ → Sign FetchLog τ) : Prop :=
  ∀ fetches map i key t, Keeps (World.In (Extends sha256 fetches)) (callback map i key t)

theorem recorded_keysCallbacks : Recorded dev.crypto.sha256 (inputKeysCallback dev.logged) ∧
      Recorded dev.crypto.sha256 (outputKeysCallback dev.logged) :=
  ⟨fun _ _ _ _ _ => keeps_inputKeysCallback (logged_keeps _ _ _) _ _ _ _,
    fun _ _ _ _ _ => keeps_outputKeysCallback (logged_keeps _ _ _) _ _ _ _⟩

variable {map : MerkleizedMapCommitment}

theorem Enumerates.fetched {callback : MerkleizedMapCommitment → Nat → Bytes → τ → Sign FetchLog τ}
    (hcallback : Recorded dev.crypto.sha256 callback)
    (h : Enumerates (keyElement dev map) (callback map) n i prev t w els t' w')
    {fetches : List LeafFetch} (hw : w.In (Extends dev.crypto.sha256 fetches)) :
    w'.In (Extends dev.crypto.sha256 fetches) ∧
      ∀ k key, els[k]? = some key → ∃ f ∈ w'.session.env.fetches, f.root = map.keysRoot ∧
        f.size = UInt32.ofNat (map.size % 2 ^ 32) ∧ f.index = UInt32.ofNat (i + k) ∧ f.element = key := by
  induction h generalizing fetches with
  | nil => exact ⟨hw, by simp⟩
  | @cons n i prev el t t1 t' w w1 w2 w' els helement _ hcall _ ih =>
    have hleaf := fetch_call_ok helement
    obtain ⟨f, hfetches, hroot, hsize, hindex, hel⟩ := leafElement_ok hleaf
    have hproved := ((keeps_leafElement _ _ _ _).ok hw hleaf).2.1.proved
    -- from here on everything extends the record with the new leaf
    have hw1 : w1.In (Extends dev.crypto.sha256 w1.session.env.fetches) := ⟨prefix_refl _, hproved⟩
    have hw2 := ((hcallback _ map i el t).ok hw1 hcall).2.1
    obtain ⟨hw', hrest⟩ := ih hw2
    have hmem : f ∈ w'.session.env.fetches := by
      apply hw'.mem
      rw [hfetches]
      exact mem_append_right _ (mem_singleton_self f)
    refine ⟨⟨?_, hw'.proved⟩, ?_⟩
    · apply hw.le.trans (List.IsPrefix.trans _ hw'.le)
      rw [hfetches]
      exact prefix_append _ _
    · intro k key hkey
      cases k with
      | zero =>
        obtain rfl : el = key := by simpa using hkey
        exact ⟨f, hmem, hroot, hsize, hindex, hel⟩
      | succ k =>
        rw [show i + (k + 1) = i + 1 + k by omega]
        exact hrest k key (by simpa using hkey)

theorem Enumerates.keysFetched {callback : MerkleizedMapCommitment → Nat → Bytes → τ → Sign FetchLog τ}
    (hcallback : Recorded dev.crypto.sha256 callback)
    {keys : List Bytes}
    (h : Enumerates (keyElement dev map) (callback map) (map.size % 2 ^ 32) 0 [] t w keys t' w')
    {fetches : List LeafFetch} (hw : w.In (Extends dev.crypto.sha256 fetches)) :
    KeysFetched w'.session.env.fetches map.keysRoot (UInt32.ofNat map.size) keys := by
  have hsize : UInt32.ofNat (map.size % 2 ^ 32) = UInt32.ofNat map.size := by
    apply UInt32.toNat_inj.mp
    simp
  constructor
  case length => rw [h.length_eq, UInt32.toNat_ofNat']
  case nodup => exact h.nodup
  case fetched =>
    intro i key hkey
    obtain ⟨hlt, -⟩ := List.getElem?_eq_some_iff.mp hkey
    obtain ⟨f, hf, hroot, hfsize, hindex, hel⟩ := (h.fetched hcallback hw).2 i key hkey
    refine ⟨f, hf, hroot, hfsize.trans hsize, ?_, hel⟩
    rw [h.length_eq] at hlt
    rw [hindex, Nat.zero_add, UInt32.toNat_ofNat']
    exact Nat.mod_eq_of_lt (by omega)

def LookupAfter (sha256 : Bytes → Digest) (fetches : List LeafFetch) (map : MerkleizedMapCommitment)
    (key value : Bytes) (s' : FetchLog) : Prop :=
  ∃ outLen s, Extends sha256 fetches s ∧ mapValue sha256 map key outLen s = .ok value s'

theorem LookupAfter.lookedUp {sha256 : Bytes → Digest} {fetches : List LeafFetch}
    {key value : Bytes} {s' : FetchLog}
    (h : LookupAfter sha256 fetches map key value s') :
    Extends sha256 fetches s' ∧
      ∃ f g, f.element = key ∧ g.element = value ∧ LookedUp s'.fetches map (UInt32.ofNat map.size) f g := by
  obtain ⟨outLen, s, hs, hrun⟩ := h
  exact ⟨((keeps_mapValue map key outLen).ok hs hrun).2.1, mapValue_ok hrun⟩

/-- **Maps are functional.** If the fetches are consistent and no collision was hashed, a key that can
be looked up has one value, and is among those that the callback was called with exactly if the size of
the map is not a multiple of 2^32. -/
theorem merkleizedMap_functional {callback : MerkleizedMapCommitment → Nat → Bytes → τ → Sign FetchLog τ}
    (hcallback : Recorded dev.crypto.sha256 callback) {root : Digest} {size index : Nat} {t t' : τ}
    {map : MerkleizedMapCommitment} {w w' : World FetchLog} (hw : w.session.env.fetches = [])
    (h : callGetMerkleizedMapWithCallback dev.logged root size index callback t w = .ok (some (map, t')) w') :
    ∃ w1 keys, Enumerates (keyElement dev map) (callback map) (map.size % 2 ^ 32) 0 [] t w1 keys t' w' ∧
      (∀ key value s, LookupAfter dev.crypto.sha256 w'.session.env.fetches map key value s →
        LeafFetch.Functional s.fetches → LeafFetch.Authentic dev.crypto.sha256 s.fetches →
        (key ∈ keys ↔ map.size % 2 ^ 32 ≠ 0) ∨ Collides dev.crypto.sha256 (LeafFetch.messages s.fetches)) ∧
      ∀ key value value' s s', LookupAfter dev.crypto.sha256 w'.session.env.fetches map key value s →
        LookupAfter dev.crypto.sha256 s.fetches map key value' s' →
        LeafFetch.Functional s'.fetches → LeafFetch.Authentic dev.crypto.sha256 s'.fetches →
        value = value' ∨ Collides dev.crypto.sha256 (LeafFetch.messages s'.fetches) := by
  obtain ⟨fetched, w1, hfetch, h⟩ := bind_ok h
  cases fetched with
  | none => simp at h
  | some map1 =>
    obtain ⟨t1, w2, hloop, h⟩ := bind_ok h
    obtain ⟨heq, rfl⟩ := pure_ok h
    obtain ⟨t2, rfl, heq⟩ := Option.map_eq_some_iff.mp heq
    cases heq
    have hstart : w.In (Extends dev.crypto.sha256 []) := ⟨ nil_prefix, by simp [hw]⟩
    have hw1 : w1.In (Extends dev.crypto.sha256 []) := by
      have henv := logged_keeps dev.crypto.sha256 dev.env []
      exact ((keeps_fetch henv (asks_fetchMapCommitment root size index)).ok hstart hfetch).2.1
    obtain ⟨keys, hkeys⟩ := checkSortedLoop_ok_iff.mp hloop
    have hfetched := hkeys.keysFetched hcallback hw1
    have hempty : UInt32.ofNat map.size ≠ 0 ↔ map.size % 2 ^ 32 ≠ 0 := by
      rw [Ne, ← UInt32.toNat_inj, UInt32.toNat_ofNat']
      rfl
    refine ⟨w1, keys, hkeys, ?_, ?_⟩
    · intro key value s hlookup hfunctional hauthentic
      obtain ⟨hs, f, g, rfl, -, hup⟩ := hlookup.lookedUp
      by_cases hfree : Collides dev.crypto.sha256 (LeafFetch.messages s.fetches)
      · exact .inr hfree
      · left
        rw [← hempty]
        exact (hfetched.mono hs.le.subset).mem_iff hs.proved hfunctional hauthentic hfree hup
    · intro key value value' s s' hlookup hlookup' hfunctional hauthentic
      obtain ⟨hs, f, g, hf, rfl, hup⟩ := hlookup.lookedUp
      obtain ⟨hs', f', g', hf', rfl, hup'⟩ := hlookup'.lookedUp
      by_cases hfree : Collides dev.crypto.sha256 (LeafFetch.messages s'.fetches)
      · exact .inr hfree
      · left
        exact (hfetched.mono (hs.le.trans hs'.le).subset).value_unique hs'.proved hfunctional hauthentic
          hfree (hup.mono hs'.le.subset) hup' (hf.trans hf'.symm)

end

namespace TwoEntries

open TwoLeaves

/-- The values are those of the keys in the other order. -/
def valuesRoot : Digest := .ofNat 0x40294d3b5eba2f6b47185952cf0d5cf2a09dff12bac9e2c64d275297bfe74632

def map : MerkleizedMapCommitment := ⟨2, root, valuesRoot⟩

def commitment : Bytes := 2 :: root.bytes ++ valuesRoot.bytes

def mapsRoot : Digest := .ofNat 0x2c29db40fe92f4b7fc38e748dd1874991310dcf70542d01ae59d2c275cba6748

def emptyMap : MerkleizedMapCommitment := ⟨0, leafA, leafB⟩

def emptyCommitment : Bytes := 0 :: leafA.bytes ++ leafB.bytes

def emptyMapsRoot : Digest := .ofNat 0xc1fe4db40936c355743b9b5955c78f07ce1ee0a6b1a74a6b20635e03d68a4eac

def sha256 : Bytes → Digest := sha256Table
  [(0x00 :: commitment, mapsRoot), (0x00 :: emptyCommitment, emptyMapsRoot), ([0x00, 0x41], leafA),
    ([0x00, 0x42], leafB), (nodeMessage leafA leafB, root), (nodeMessage leafB leafA, valuesRoot)]

def device : Device Outside :=
  { OneKey.device with
    crypto := { OneKey.crypto with sha256 }
    env := .wire sha256 ⟨0, 0, fun _ => 0⟩ [] fun _ => pure none }

def proofAnswer (leaf sibling : Digest) : Bytes := leaf.bytes ++ [1, 1] ++ sibling.bytes

def preimageAnswer (element : Bytes) : Bytes :=
  let len := UInt8.ofNat (element.length + 1)
  [len, len, 0x00] ++ element

def rootAnswers (root : Digest) (element : Bytes) : List Bytes := [root.bytes ++ [0, 0], preimageAnswer element]

/-- The second key has the value `A`. -/
def lookupAnswers : List Bytes :=
  [[1, 1], proofAnswer leafB leafA, proofAnswer leafA leafB, preimageAnswer [0x41]]

def start (answers : List Bytes) : World FetchLog := .initial ⟨(OneKey.session answers).env, []⟩

def keysAnswers : List Bytes :=
  [proofAnswer leafA leafB, preimageAnswer [0x41], proofAnswer leafB leafA, preimageAnswer [0x42]]

def client : World FetchLog :=
  start (rootAnswers mapsRoot commitment ++ keysAnswers ++ lookupAnswers ++ lookupAnswers)

def emptyClient : World FetchLog :=
  start (rootAnswers emptyMapsRoot emptyCommitment ++ [[1, 0], leafA.bytes ++ [0, 0]] ++
    rootAnswers leafB [0x42])

abbrev ReadMap : Type := Option (MerkleizedMapCommitment × Unit)

def readMap (root : Digest) : Sign FetchLog ReadMap :=
  callGetMerkleizedMapWithCallback device.logged root 1 0 (fun _ _ _ t => pure t) ()

def lookUp (map : MerkleizedMapCommitment) (key : Bytes) : Sign FetchLog (Except Int Bytes) :=
  fetch device.logged (call (device.logged.env.mapValue map key 1))

def lookUpTwice : Sign FetchLog (ReadMap × Except Int Bytes × Except Int Bytes) := do
  let read ← readMap mapsRoot
  let value ← lookUp map [0x42]
  let value' ← lookUp map [0x42]
  return (read, value, value')

def lookUpInEmpty : Sign FetchLog (ReadMap × Except Int Bytes) := do
  let read ← readMap emptyMapsRoot
  let value ← lookUp emptyMap [0x41]
  return (read, value)

def rootFetch (size : UInt32) (root : Digest) (element : Bytes) : LeafFetch :=
  ⟨root, size, 0, root, element, []⟩

def keyFetchA : LeafFetch := ⟨root, 2, 0, leafA, [0x41], [nodeMessage leafA leafB]⟩

def keyFetchB : LeafFetch := ⟨root, 2, 1, leafB, [0x42], [nodeMessage leafA leafB]⟩

def valueFetchA : LeafFetch := ⟨valuesRoot, 2, 1, leafA, [0x41], [nodeMessage leafB leafA]⟩

def fetches : List LeafFetch :=
  [rootFetch 1 mapsRoot commitment, keyFetchA, keyFetchB, keyFetchB, valueFetchA, keyFetchB, valueFetchA]

def emptyFetches : List LeafFetch :=
  [rootFetch 1 emptyMapsRoot emptyCommitment, rootFetch 0 leafA [0x41], rootFetch 0 leafB [0x42]]

theorem lookUps_ok : (returned? lookUpTwice client = some (some (map, ()), .ok [0x41], .ok [0x41]) ∧
      (finalState lookUpTwice client).session.env.fetches = fetches) ∧
    returned? lookUpInEmpty emptyClient = some (some (emptyMap, ()), .ok [0x42]) ∧
      (finalState lookUpInEmpty emptyClient).session.env.fetches = emptyFetches :=
  ⟨by decide +kernel, by decide +kernel⟩

theorem recorded : Recorded sha256 (fun _ _ _ (t : Unit) => pure t) := fun _ _ _ _ _ => keeps_pure _

theorem extends_readMap {root : Digest} {r : ReadMap} (hw : w.session.env.fetches = [])
    (h : readMap root w = .ok r w') :
    FetchLog.Extends sha256 w'.session.env.fetches w'.session.env := by
  have hkeeps : Keeps (World.In (FetchLog.Extends sha256 [])) (readMap root) :=
    keeps_callGetMerkleizedMapWithCallback (logged_keeps sha256 device.env []) root 1 0
      (fun _ _ _ _ => keeps_pure _) ()
  have hstart : w.In (FetchLog.Extends sha256 []) := ⟨ nil_prefix, by simp [hw]⟩
  exact ⟨prefix_refl _, (hkeeps.ok hstart h).2.1.proved⟩

theorem lookupAfter {map : MerkleizedMapCommitment} {key value : Bytes}
    (hw : FetchLog.Extends sha256 w.session.env.fetches w.session.env)
    (h : lookUp map key w = .ok (.ok value) w') :
    LookupAfter sha256 w.session.env.fetches map key value w'.session.env :=
  ⟨1, w.session.env, hw, fetch_call_ok h⟩

/-- A run for a PSBT with this global map, where no transaction version is found. -/
def runFetches (request : Bytes) (outside : Outside) : List LeafFetch :=
  (finalState (handlerSignPsbt device.logged 1 request) (.initial ⟨outside, []⟩)).session.env.fetches

def request : Bytes := commitment ++ replicate 130 0

def outside : Outside := (OneKey.session (keysAnswers ++ [[0, 0]])).env

end TwoEntries

open TwoEntries in
theorem merkleizedMap_functional_twoEntries : ∃ w' s s', readMap mapsRoot client = .ok (some (map, ())) w' ∧
      LookupAfter sha256 w'.session.env.fetches map [0x42] [0x41] s ∧
      LookupAfter sha256 s.fetches map [0x42] [0x41] s' ∧
      (([0x41] : Bytes) = [0x41] ∨ Collides sha256 (LeafFetch.messages s'.fetches)) := by
  obtain ⟨hreturned, hfetches⟩ := lookUps_ok.1
  obtain ⟨w3, hrun, hw3⟩ : ∃ w3, lookUpTwice client = .ok (some (map, ()), .ok [0x41], .ok [0x41]) w3 ∧
      w3.session.env.fetches = fetches := ⟨_, ok_of_returned? hreturned, hfetches⟩
  obtain ⟨read, w1, hmap, hrun⟩ := bind_ok hrun
  obtain ⟨value, w2, hlookup, hrun⟩ := bind_ok hrun
  obtain ⟨value', w3, hlookup', hrun⟩ := bind_ok hrun
  obtain ⟨heq, rfl⟩ := pure_ok hrun
  cases heq
  have hfirst := lookupAfter (extends_readMap rfl hmap) hlookup
  have hsecond := lookupAfter ⟨prefix_refl _, hfirst.lookedUp.1.proved⟩ hlookup'
  obtain ⟨_, _, -, -, hvalues⟩ := @merkleizedMap_functional Unit device _ recorded _ _ _ _ _ _ _ _ rfl hmap
  refine ⟨w1, _, _, hmap, hfirst, hsecond, hvalues _ _ _ _ _ hfirst hsecond ?_ ?_⟩
  · rw [hw3]
    decide +kernel
  · rw [hw3]
    decide +kernel

open TwoEntries in
/-- In a map of size zero a key is found that the callback was not called with. -/
theorem not_merkleizedMap_functional :
    ∃ w' s, readMap emptyMapsRoot emptyClient = .ok (some (emptyMap, ())) w' ∧
      LookupAfter sha256 w'.session.env.fetches emptyMap [0x41] [0x42] s ∧
      LeafFetch.Functional s.fetches ∧ LeafFetch.Authentic sha256 s.fetches ∧
      ¬Collides sha256 (LeafFetch.messages s.fetches) ∧
      ∀ w1 keys, Enumerates (keyElement device emptyMap) (fun _ _ (t : Unit) => pure t)
        (emptyMap.size % 2 ^ 32) 0 [] () w1 keys () w' → [0x41] ∉ keys := by
  obtain ⟨hreturned, hfetches⟩ := lookUps_ok.2
  obtain ⟨w2, hrun, hw2⟩ : ∃ w2, lookUpInEmpty emptyClient = .ok (some (emptyMap, ()), .ok [0x42]) w2 ∧
      w2.session.env.fetches = emptyFetches := ⟨_, ok_of_returned? hreturned, hfetches⟩
  obtain ⟨read, w1, hmap, hrun⟩ := bind_ok hrun
  obtain ⟨value, w2, hlookup, hrun⟩ := bind_ok hrun
  obtain ⟨heq, rfl⟩ := pure_ok hrun
  cases heq
  refine ⟨w1, w2.session.env, hmap, lookupAfter (extends_readMap rfl hmap) hlookup, ?_⟩
  rw [hw2]
  refine ⟨by decide +kernel, by decide +kernel, by decide +kernel, ?_⟩
  intro w keys hkeys hmem
  have hlen : keys.length = 0 := hkeys.length_eq
  rw [length_eq_zero_iff.mp hlen] at hmem
  cases hmem

end LedgerBabylon
