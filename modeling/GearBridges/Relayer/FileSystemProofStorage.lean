import GearBridges.Lib.Decimal
import GearBridges.Lib.FiniteMap
import GearBridges.Lib.Transition
import Mathlib.Data.List.TakeWhile
import Mathlib.Data.UInt

/-!
# Relayer.FileSystemProofStorage

The proof storage that the relayer keeps in a directory, a file for each proof and one for the
circuit data.  A call changes the copy in memory and then writes every file again; a restart reads
the files back and takes the ids of the proofs from their names.

Nothing puts the copy in memory back when a write fails, and a restart slices every name of the
directory, whoever the file belongs to.  `survives_iff` says in which runs neither does harm.
-/

namespace GearBridges.FileSystemProofStorage

open Decimal FiniteMap Transition

/-! ## the storage in memory -/

abbrev AuthoritySetId := UInt64

structure Proof where
  bytes : List UInt8
deriving DecidableEq

structure CircuitData where
  bytes : List UInt8
deriving DecidableEq

structure ProofWithCircuitData where
  proof : Proof
  circuitData : CircuitData
deriving DecidableEq

inductive ProofStorageError where
  | alreadyInitialized
  | notInitialized
  | notFound (authoritySetId : AuthoritySetId)
  | authoritySetIdMismatch
deriving DecidableEq

inductive Outcome where
  | ok
  | err (e : ProofStorageError)
  | panic
deriving DecidableEq

structure InMemoryProofStorage where
  proofs : Std.TreeMap AuthoritySetId Proof := ∅
  circuitData : Option CircuitData := none

namespace InMemoryProofStorage

def init (self : InMemoryProofStorage) (proofWithCircuitData : ProofWithCircuitData)
    (genesisValidatorSetId : AuthoritySetId) : Outcome × InMemoryProofStorage :=
  if self.proofs.isEmpty then
    (.ok,
      { circuitData := some proofWithCircuitData.circuitData
        proofs := self.proofs.insert (genesisValidatorSetId + 1) proofWithCircuitData.proof })
  else (.err .alreadyInitialized, self)

def getCircuitData (self : InMemoryProofStorage) : Except ProofStorageError CircuitData :=
  match self.circuitData with
  | some circuitData => .ok circuitData
  | none => .error .notInitialized

def getLatestAuthoritySetId (self : InMemoryProofStorage) : Option AuthoritySetId :=
  (lastKeyValue self.proofs).map Prod.fst

def getProofForAuthoritySetId (self : InMemoryProofStorage) (authoritySetId : AuthoritySetId) :
    Except ProofStorageError ProofWithCircuitData :=
  match self.getCircuitData with
  | .error e => .error e
  | .ok circuitData =>
      match self.proofs[authoritySetId]? with
      | none => .error (.notFound authoritySetId)
      | some proof => .ok ⟨proof, circuitData⟩

/-- Panics when there is no proof yet, or when the next id, which wraps around, is taken. -/
def update (self : InMemoryProofStorage) (proof : Proof) (newAuthoritySetId : AuthoritySetId) :
    Outcome × InMemoryProofStorage :=
  match self.getLatestAuthoritySetId with
  | none => (.panic, self)
  | some authoritySetId =>
      if newAuthoritySetId ≠ authoritySetId + 1 then (.err .authoritySetIdMismatch, self)
      else
        let updated := { self with proofs := self.proofs.insert (authoritySetId + 1) proof }
        if self.proofs[authoritySetId + 1]?.isSome then (.panic, updated) else (.ok, updated)

end InMemoryProofStorage

/-! ## the directory -/

/-- The name of a file, which need not be UTF-8. -/
inductive FileName where
  | utf8 (name : List Char)
  | other (bytes : List UInt8)
deriving DecidableEq

abbrev Directory := AList fun _ : FileName => List UInt8

def prefixChars : List Char := ['p', 'r', 'o', 'o', 'f', '_']

def postfixChars : List Char := ['.', 'b', 'i', 'n']

/-- `circuit_data.bin` -/
def circuitDataBin : FileName :=
  .utf8 (['c', 'i', 'r', 'c', 'u', 'i', 't', '_', 'd', 'a', 't', 'a'] ++ postfixChars)

/-- `proof_{}.bin` -/
def proofBin (validatorSetId : AuthoritySetId) : FileName :=
  .utf8 (prefixChars ++ decimal validatorSetId.toNat ++ postfixChars)

/-- How a write ends.  A failed one may leave the file as it was, or with as many bytes as were
written. -/
inductive Written where
  | done
  | failed (left : Option Nat)
deriving DecidableEq

/-- The writes of `save_state`, up to the first one that fails. -/
def writeAll : List (FileName × List UInt8) → List Written → Directory → Outcome × Directory
  | [], _, dir => (.ok, dir)
  | (name, bytes) :: rest, writes, dir =>
      match writes.headD .done with
      | .done => writeAll rest writes.tail (dir.insert name bytes)
      | .failed none => (.err .notInitialized, dir)
      | .failed (some left) => (.err .notInitialized, dir.insert name (bytes.take left))

/-- The files of the proofs. -/
def proofFiles (proofs : Std.TreeMap AuthoritySetId Proof) : List (FileName × List UInt8) :=
  proofs.toList.map fun e => (proofBin e.1, e.2.bytes)

def saveState (cache : InMemoryProofStorage) (writes : List Written) (dir : Directory) :
    Outcome × Directory :=
  match cache.circuitData with
  | none => (.err .notInitialized, dir)
  | some circuitData =>
      writeAll ((circuitDataBin, circuitData.bytes) :: proofFiles cache.proofs) writes dir

/-- `name.len()`, in bytes. -/
def byteLength (name : List Char) : Nat := (name.map Char.utf8Size).sum

/-- A string cut at a byte, unless it is too short or the byte is inside a character. -/
def splitAtByte : Nat → List Char → Option (List Char × List Char)
  | 0, name => some ([], name)
  | _ + 1, [] => none
  | n + 1, c :: name =>
      if c.utf8Size ≤ n + 1 then
        (splitAtByte (n + 1 - c.utf8Size) name).map fun s => (c :: s.1, s.2)
      else none

/-- `&name[start..stop]`, which may panic. -/
def slice (name : List Char) (start stop : Nat) : Option (List Char) :=
  match splitAtByte stop name with
  | none => none
  | some (front, _) => (splitAtByte start front).map Prod.snd

def stripPlus : List Char → List Char
  | '+' :: digits => digits
  | digits => digits

/-- `str::parse::<u64>`: digits, perhaps behind a plus. -/
def parseU64 (str : List Char) : Option UInt64 :=
  let digits := stripPlus str
  if digits ≠ [] ∧ digits.all Char.isDigit ∧ Nat.ofDigitChars 10 digits 0 < 2 ^ 64 then
    some (UInt64.ofNat (Nat.ofDigitChars 10 digits 0))
  else none

/-- The id in the name of a file, if it is that of a proof; `none` is a panic. -/
def foundValidatorSetId : FileName → Option (Option AuthoritySetId)
  | .other _ => some none
  | .utf8 name =>
      match slice name 0 prefixChars.length,
        slice name (byteLength name - postfixChars.length) (byteLength name) with
      | some front, some back =>
          if front = prefixChars ∧ back = postfixChars then
            match slice name prefixChars.length (byteLength name - postfixChars.length) with
            | none => none
            | some setId => (parseU64 setId).map some
          else some none
      | _, _ => none

/-- The loop of `load_state` over the names as `read_dir` lists them. -/
def loadProofs (dir : Directory) : List FileName → InMemoryProofStorage →
    Outcome × InMemoryProofStorage
  | [], cache => (.ok, cache)
  | name :: rest, cache =>
      match foundValidatorSetId name with
      | none => (.panic, cache)
      | some none => loadProofs dir rest cache
      | some (some validatorSetId) =>
          match dir.lookup (proofBin validatorSetId) with
          | none => (.err .notInitialized, cache)
          | some proof =>
              loadProofs dir rest
                { cache with proofs := cache.proofs.insert validatorSetId ⟨proof⟩ }

def loadState (dir : Directory) (listing : List FileName) (cache : InMemoryProofStorage) :
    Outcome × InMemoryProofStorage :=
  match dir.lookup circuitDataBin with
  | none => (.err .notInitialized, cache)
  | some circuitData => loadProofs dir listing { cache with circuitData := some ⟨circuitData⟩ }

/-- `FileSystemProofStorage::new`; `none` is a panic.  An error of `load_state` is logged, and what
was loaded stays. -/
def new (dir : Directory) (listing : List FileName) : Option InMemoryProofStorage :=
  match loadState dir listing {} with
  | (.panic, _) => none
  | (_, cache) => some cache

/-- A change of the storage in memory that went well is saved. -/
def thenSave (writes : List Written) (dir : Directory) :
    Outcome × InMemoryProofStorage → Outcome × InMemoryProofStorage × Directory
  | (.ok, cache) => ((saveState cache writes dir).1, cache, (saveState cache writes dir).2)
  | (outcome, cache) => (outcome, cache, dir)

/-! ## runs -/

inductive Action where
  | init (proofWithCircuitData : ProofWithCircuitData) (genesisValidatorSetId : AuthoritySetId)
      (writes : List Written)
  | update (proof : Proof) (newAuthoritySetId : AuthoritySetId) (writes : List Written)
  /-- A new process, to which `read_dir` lists the files in some order. -/
  | restart (listing : List FileName)

/-- The directory, the storage of the running process, and whether the last call was successful. -/
structure World where
  dir : Directory
  storage : Option InMemoryProofStorage
  lastOk : Bool

/-- The call that an action makes. -/
def call (dir : Directory) (cache : InMemoryProofStorage) :
    Action → Option (Outcome × InMemoryProofStorage × Directory)
  | .init proofWithCircuitData genesisValidatorSetId writes =>
      some (thenSave writes dir (cache.init proofWithCircuitData genesisValidatorSetId))
  | .update proof newAuthoritySetId writes =>
      some (thenSave writes dir (cache.update proof newAuthoritySetId))
  | .restart _ => none

/-- The process is gone after a panic. -/
def World.called : Outcome × InMemoryProofStorage × Directory → World
  | (.ok, cache, dir) => ⟨dir, some cache, true⟩
  | (.err _, cache, dir) => ⟨dir, some cache, false⟩
  | (.panic, _, dir) => ⟨dir, none, false⟩

def World.restarted (w : World) : Option InMemoryProofStorage → World
  | none => ⟨w.dir, none, false⟩
  | some cache => ⟨w.dir, some cache, w.lastOk⟩

def step (w : World) : Action → Option World
  | .restart listing =>
      if listing.Perm w.dir.keys then some (w.restarted (new w.dir listing)) else none
  | a =>
      match w.storage with
      | none => none
      | some cache => (call w.dir cache a).map World.called

/-- Before the first process there is a directory with any files. -/
def Started (w : World) : Prop := w.storage = none ∧ w.lastOk = false

/-- Two storages answer the same. -/
def SameAnswers (a b : InMemoryProofStorage) : Prop :=
  a.getLatestAuthoritySetId = b.getLatestAuthoritySetId ∧
    ∀ id, a.getProofForAuthoritySetId id = b.getProofForAuthoritySetId id

/-- What is asked of a step. -/
structure Survives (w : World) (a : Action) : Prop where
  noPanic : ∀ listing, a = .restart listing → (new w.dir listing).isSome
  answers : ∀ listing cache cache', a = .restart listing → w.lastOk = true →
    w.storage = some cache → new w.dir listing = some cache' → SameAnswers cache' cache
  unchanged : ∀ cache e cache' dir', w.storage = some cache →
    call w.dir cache a = some (.err e, cache', dir') → SameAnswers cache' cache

/-- The first `n` writes go well. -/
def Arrive (writes : List Written) (n : Nat) : Prop := ∀ w ∈ writes.take n, w = .done

/-- The names up to the first id for which there is no file. -/
def reached (dir : Directory) (listing : List FileName) : List FileName :=
  listing.takeWhile fun name =>
    match foundValidatorSetId name with
    | some (some validatorSetId) => (dir.lookup (proofBin validatorSetId)).isSome
    | _ => true

/-- No file is written in part, the names reached by a restart can be sliced and parsed, and the
ids in them are those of the storage. -/
def Harmless (w : World) : Action → Prop
  | .init _ _ writes => ∀ cache, w.storage = some cache → cache.proofs.isEmpty → Arrive writes 2
  | .update _ newAuthoritySetId writes => ∀ cache latest, w.storage = some cache →
      cache.getLatestAuthoritySetId = some latest → newAuthoritySetId = latest + 1 →
        cache.proofs[latest + 1]? = none → Arrive writes (cache.proofs.size + 2)
  | .restart listing => (w.dir.lookup circuitDataBin).isSome →
      (∀ name ∈ reached w.dir listing, (foundValidatorSetId name).isSome) ∧
        (w.lastOk = true → ∀ cache, w.storage = some cache → ∀ id,
          cache.proofs[id]?.isSome ↔
            some (some id) ∈ (reached w.dir listing).map foundValidatorSetId)

/-! ## names -/

theorem splitAtByte_append (front back : List Char) :
    splitAtByte (byteLength front) (front ++ back) = some (front, back) := by
  induction front with
  | nil => cases back <;> rfl
  | cons c front ih =>
      have hpos : 0 < c.utf8Size := c.utf8Size_pos
      obtain ⟨n, hn⟩ : ∃ n, byteLength (c :: front) = n + 1 := by
        refine ⟨byteLength (c :: front) - 1, ?_⟩
        simp only [byteLength, List.map_cons, List.sum_cons]
        omega
      have hrest : n + 1 - c.utf8Size = byteLength front := by
        rw [← hn, byteLength, List.map_cons, List.sum_cons, Nat.add_sub_cancel_left]
        rfl
      have hle : c.utf8Size ≤ n + 1 := by
        rw [← hn, byteLength, List.map_cons, List.sum_cons]
        exact Nat.le_add_right _ _
      rw [hn, List.cons_append, splitAtByte, if_pos hle, hrest, ih]
      rfl

@[simp] theorem byteLength_append (a b : List Char) :
    byteLength (a ++ b) = byteLength a + byteLength b := by
  rw [byteLength, List.map_append, List.sum_append]
  rfl

/-- The middle of three parts. -/
theorem slice_append (front middle back : List Char) :
    slice (front ++ middle ++ back) (byteLength front) (byteLength (front ++ middle)) =
      some middle := by
  rw [slice, splitAtByte_append]
  simp only [splitAtByte_append, Option.map_some]

theorem parseU64_decimal (id : UInt64) : parseU64 (decimal id.toNat) = some id := by
  have hdigits : ∀ c ∈ decimal id.toNat, c.isDigit := fun c hc => isDigit_of_mem hc
  have hplus : stripPlus (decimal id.toNat) = decimal id.toNat := by
    unfold stripPlus
    split
    · next rest heq =>
      exact absurd (hdigits '+' (by rw [heq]; exact List.mem_cons_self)) (by decide)
    · rfl
  unfold parseU64
  simp only [hplus, value_decimal, UInt64.ofNat_toNat]
  exact if_pos ⟨decimal_ne_nil _, List.all_eq_true.mpr hdigits, id.toNat_lt⟩

/-- The id is found in the name of its file. -/
theorem foundValidatorSetId_proofBin (id : AuthoritySetId) :
    foundValidatorSetId (proofBin id) = some (some id) := by
  have hfront6 : prefixChars.length = byteLength prefixChars := by decide
  have hback4 : postfixChars.length = byteLength postfixChars := by decide
  have hfront := slice_append [] prefixChars (decimal id.toNat ++ postfixChars)
  have hmiddle := slice_append prefixChars (decimal id.toNat) postfixChars
  have hback := slice_append (prefixChars ++ decimal id.toNat) postfixChars []
  rw [List.nil_append, ← List.append_assoc] at hfront
  rw [List.append_nil] at hback
  have hstop : byteLength (prefixChars ++ decimal id.toNat ++ postfixChars) -
      postfixChars.length = byteLength (prefixChars ++ decimal id.toNat) := by
    rw [hback4, byteLength_append, Nat.add_sub_cancel]
  simp only [foundValidatorSetId, proofBin]
  rw [hstop, hback, hfront6]
  have hzero : byteLength [] = 0 := rfl
  rw [hzero] at hfront
  rw [hfront, hmiddle]
  simp [parseU64_decimal]

theorem foundValidatorSetId_circuitDataBin : foundValidatorSetId circuitDataBin = some none := by
  decide

/-! ## writing -/

theorem arrive_succ {writes : List Written} {n : Nat} :
    Arrive writes (n + 1) ↔ writes.headD .done = .done ∧ Arrive writes.tail n := by
  cases writes with
  | nil => simp [Arrive]
  | cons w writes => simp [Arrive]

theorem writeAll_of_arrive {files : List (FileName × List UInt8)} {writes : List Written}
    {dir : Directory} (h : Arrive writes files.length) :
    writeAll files writes dir = (.ok, insertAll files dir) := by
  induction files generalizing writes dir with
  | nil => rfl
  | cons file files ih =>
      obtain ⟨hdone, hrest⟩ := arrive_succ.mp h
      rw [writeAll, hdone]
      exact ih hrest

theorem writeAll_of_not_arrive {files : List (FileName × List UInt8)} {writes : List Written}
    {dir : Directory} (h : ¬ Arrive writes files.length) :
    (writeAll files writes dir).1 = .err .notInitialized := by
  induction files generalizing writes dir with
  | nil => exact absurd (by simp [Arrive]) h
  | cons file files ih =>
      rw [writeAll]
      split
      · next hdone => exact ih fun hrest => h (arrive_succ.mpr ⟨hdone, hrest⟩)
      · rfl
      · rfl

@[simp] theorem length_proofFiles (proofs : Std.TreeMap AuthoritySetId Proof) :
    (proofFiles proofs).length = proofs.size := by
  rw [proofFiles, List.length_map, Std.TreeMap.length_toList]

theorem proofBin_injective : Function.Injective proofBin := by
  intro id id' h
  injection h with h
  have hdecimal := List.append_cancel_left (List.append_cancel_right h)
  exact UInt64.toNat_inj.mp (decimal_injective hdecimal)

theorem proofBin_ne_circuitDataBin (id : AuthoritySetId) : proofBin id ≠ circuitDataBin := by
  intro h
  injection h with h
  injection h with hfirst
  exact absurd hfirst (by decide)

theorem map_fst_proofFiles (proofs : Std.TreeMap AuthoritySetId Proof) :
    (proofFiles proofs).map Prod.fst = proofs.keys.map proofBin := by
  rw [proofFiles, List.map_map, ← Std.TreeMap.map_fst_toList_eq_keys, List.map_map]
  rfl

/-- Every file of the storage has a name of its own. -/
theorem nodup_names (circuitData : List UInt8) (proofs : Std.TreeMap AuthoritySetId Proof) :
    (((circuitDataBin, circuitData) :: proofFiles proofs).map Prod.fst).Nodup := by
  rw [List.map_cons, map_fst_proofFiles, List.nodup_cons]
  constructor
  · intro hmem
    obtain ⟨id, -, hid⟩ := List.mem_map.mp hmem
    exact proofBin_ne_circuitDataBin id hid
  · exact Std.TreeMap.nodup_keys.map proofBin_injective

/-- What is in memory is in the files. -/
def Saved (dir : Directory) (cache : InMemoryProofStorage) : Prop :=
  ∃ circuitData, cache.circuitData = some circuitData ∧
    dir.lookup circuitDataBin = some circuitData.bytes ∧
      ∀ id proof, cache.proofs[id]? = some proof → dir.lookup (proofBin id) = some proof.bytes

section saveState

variable {cache : InMemoryProofStorage} {circuitData : CircuitData} {writes : List Written}
  {dir : Directory}

theorem saveState_of_arrive (dir : Directory) (hdata : cache.circuitData = some circuitData)
    (h : Arrive writes (cache.proofs.size + 1)) :
    (saveState cache writes dir).1 = .ok ∧ Saved (saveState cache writes dir).2 cache ∧
      ∀ name ∈ (saveState cache writes dir).2, name ∈ dir ∨ name = circuitDataBin ∨
        ∃ id, name = proofBin id ∧ cache.proofs[id]?.isSome := by
  have hall : saveState cache writes dir =
      (.ok, insertAll ((circuitDataBin, circuitData.bytes) :: proofFiles cache.proofs) dir) := by
    rw [saveState, hdata]
    exact writeAll_of_arrive (by rwa [List.length_cons, length_proofFiles])
  have hnodup := nodup_names circuitData.bytes cache.proofs
  rw [hall]
  refine ⟨rfl, ⟨circuitData, hdata, lookup_insertAll_of_mem hnodup List.mem_cons_self, ?_⟩, ?_⟩
  · intro id proof hproof
    have hmem : (id, proof) ∈ cache.proofs.toList :=
      Std.TreeMap.mem_toList_iff_getElem?_eq_some.mpr hproof
    exact lookup_insertAll_of_mem hnodup
      (List.mem_cons_of_mem _ (List.mem_map.mpr ⟨(id, proof), hmem, rfl⟩))
  · intro name hname
    obtain ⟨bytes, hbytes⟩ := Option.isSome_iff_exists.mp (AList.lookup_isSome.mpr hname)
    rcases mem_or_lookup_of_insertAll hbytes with hmem | hlookup
    · rcases List.mem_cons.mp hmem with heq | hmem
      · exact .inr (.inl (Prod.mk.inj heq).1)
      · obtain ⟨⟨id, proof⟩, hproof, heq⟩ := List.mem_map.mp hmem
        rw [Std.TreeMap.mem_toList_iff_getElem?_eq_some] at hproof
        exact .inr (.inr ⟨id, (Prod.mk.inj heq).1.symm, by rw [hproof]; rfl⟩)
    · exact .inl (AList.lookup_isSome.mp (by rw [hlookup]; rfl))

theorem saveState_of_not_arrive (hdata : cache.circuitData = some circuitData)
    (h : ¬ Arrive writes (cache.proofs.size + 1)) :
    (saveState cache writes dir).1 = .err .notInitialized := by
  rw [saveState, hdata]
  exact writeAll_of_not_arrive (by rwa [List.length_cons, length_proofFiles])

end saveState

/-! ## loading -/

section loadProofs

variable {dir : Directory} {name : FileName} {rest listing : List FileName}
  {cache : InMemoryProofStorage} {id : AuthoritySetId}

theorem reached_cons_of_not_id (h : foundValidatorSetId name = none ∨
    foundValidatorSetId name = some none) :
    reached dir (name :: rest) = name :: reached dir rest := by
  rcases h with h | h <;> simp [reached, h]

theorem reached_cons_of_missing (h : foundValidatorSetId name = some (some id))
    (hmissing : dir.lookup (proofBin id) = none) : reached dir (name :: rest) = [] := by
  simp [reached, h, hmissing]

theorem reached_cons_of_present {bytes : List UInt8} (h : foundValidatorSetId name = some (some id))
    (hpresent : dir.lookup (proofBin id) = some bytes) :
    reached dir (name :: rest) = name :: reached dir rest := by
  simp [reached, h, hpresent]

/-- An id that is reached has a file. -/
theorem isSome_lookup_of_reached
    (h : some (some id) ∈ (reached dir listing).map foundValidatorSetId) :
    (dir.lookup (proofBin id)).isSome := by
  obtain ⟨name, hname, hfound⟩ := List.mem_map.mp h
  simpa [hfound] using List.mem_takeWhile_imp hname

/-- A name that cannot be sliced or parsed panics when it is reached. -/
theorem loadProofs_panic (h : ∃ name ∈ reached dir listing, foundValidatorSetId name = none) :
    (loadProofs dir listing cache).1 = .panic := by
  induction listing generalizing cache with
  | nil => simp [reached] at h
  | cons name rest ih =>
      unfold loadProofs
      split
      · rfl
      · next hfound =>
        rw [reached_cons_of_not_id (.inr hfound), List.exists_mem_cons_iff] at h
        exact ih (h.resolve_left (by simp [hfound]))
      · next id hfound =>
        split
        · next hmissing =>
          rw [reached_cons_of_missing hfound hmissing] at h
          simp at h
        · next bytes hpresent =>
          rw [reached_cons_of_present hfound hpresent, List.exists_mem_cons_iff] at h
          exact ih (h.resolve_left (by simp [hfound]))

/-- Without a panic, the proofs of the ids that are reached are those in their files. -/
theorem loadProofs_spec (cache : InMemoryProofStorage)
    (h : ∀ name ∈ reached dir listing, (foundValidatorSetId name).isSome) :
    (loadProofs dir listing cache).1 ≠ .panic ∧
      (loadProofs dir listing cache).2.circuitData = cache.circuitData ∧
      ∀ id, (loadProofs dir listing cache).2.proofs[id]? =
        if some (some id) ∈ (reached dir listing).map foundValidatorSetId then
          (dir.lookup (proofBin id)).map Proof.mk
        else cache.proofs[id]? := by
  induction listing generalizing cache with
  | nil => exact ⟨by simp [loadProofs], rfl, fun id => by simp [loadProofs, reached]⟩
  | cons name rest ih =>
      unfold loadProofs
      split
      · next hfound =>
        rw [reached_cons_of_not_id (.inl hfound)] at h
        exact absurd (h name List.mem_cons_self) (by simp [hfound])
      · next hfound =>
        rw [reached_cons_of_not_id (.inr hfound)] at h ⊢
        have ih := ih cache fun name' hmem => h name' (List.mem_cons_of_mem _ hmem)
        simpa [hfound] using ih
      · next id hfound =>
        split
        · next hmissing =>
          rw [reached_cons_of_missing hfound hmissing]
          exact ⟨by simp, rfl, fun id => by simp⟩
        · next bytes hpresent =>
          rw [reached_cons_of_present hfound hpresent] at h ⊢
          obtain ⟨hpanic, hdata, hproofs⟩ :=
            ih { cache with proofs := cache.proofs.insert id ⟨bytes⟩ }
              fun name' hmem => h name' (List.mem_cons_of_mem _ hmem)
          refine ⟨hpanic, hdata, fun id' => ?_⟩
          rw [hproofs id']
          simp only [List.map_cons, List.mem_cons, hfound]
          by_cases hid : id' = id
          · subst hid
            simp [hpresent]
          · have hne : compare id id' ≠ .eq := fun heq =>
              hid (Std.LawfulEqCmp.eq_of_compare heq).symm
            simp [hid, Std.TreeMap.getElem?_insert, hne]

theorem new_of_panic (h : (loadState dir listing {}).1 = .panic) : new dir listing = none := by
  unfold new
  split
  · rfl
  · next hne hload =>
    rw [hload] at h
    exact absurd h (by simpa using hne)

theorem new_of_not_panic (h : (loadState dir listing {}).1 ≠ .panic) :
    new dir listing = some (loadState dir listing {}).2 := by
  unfold new
  split
  · next hload => exact absurd (by rw [hload]) h
  · next hload => rw [hload]

/-- What a restart does: it finds no storage, it panics, or it loads the proofs that it reaches. -/
theorem new_cases (dir : Directory) (listing : List FileName) :
    (dir.lookup circuitDataBin = none ∧ new dir listing = some {}) ∨
    (∃ bytes, dir.lookup circuitDataBin = some bytes ∧
      (∃ name ∈ reached dir listing, foundValidatorSetId name = none) ∧ new dir listing = none) ∨
    (∃ bytes cache, dir.lookup circuitDataBin = some bytes ∧
      (∀ name ∈ reached dir listing, (foundValidatorSetId name).isSome) ∧
      new dir listing = some cache ∧ cache.circuitData = some ⟨bytes⟩ ∧
      ∀ id, cache.proofs[id]? =
        if some (some id) ∈ (reached dir listing).map foundValidatorSetId then
          (dir.lookup (proofBin id)).map Proof.mk
        else none) := by
  cases hdata : dir.lookup circuitDataBin with
  | none => exact .inl ⟨rfl, by simp [new, loadState, hdata]⟩
  | some bytes =>
      have hload : loadState dir listing {} =
          loadProofs dir listing { circuitData := some ⟨bytes⟩ } := by
        rw [loadState, hdata]
      by_cases hpanics : ∃ name ∈ reached dir listing, foundValidatorSetId name = none
      · refine .inr (.inl ⟨bytes, rfl, hpanics, new_of_panic ?_⟩)
        rw [hload]
        exact loadProofs_panic hpanics
      · have hsafe : ∀ name ∈ reached dir listing, (foundValidatorSetId name).isSome :=
          fun name hmem => Option.isSome_iff_ne_none.mpr fun hname => hpanics ⟨name, hmem, hname⟩
        obtain ⟨hne, hcircuit, hproofs⟩ :=
          loadProofs_spec { circuitData := some ⟨bytes⟩ } hsafe
        rw [← hload] at hne hcircuit hproofs
        refine .inr (.inr ⟨bytes, _, rfl, hsafe, new_of_not_panic hne, hcircuit, fun id => ?_⟩)
        rw [hproofs id]
        simp

end loadProofs

/-! ## answers -/

section answers

variable {a b : InMemoryProofStorage} {circuitData : CircuitData}

theorem SameAnswers.refl (a : InMemoryProofStorage) : SameAnswers a a := ⟨rfl, fun _ => rfl⟩

theorem getLatestAuthoritySetId_eq_some_iff {id : AuthoritySetId} :
    a.getLatestAuthoritySetId = some id ↔
      a.proofs[id]?.isSome ∧ ∀ id', a.proofs[id']?.isSome → (compare id' id).isLE := by
  simp only [InMemoryProofStorage.getLatestAuthoritySetId, Option.map_eq_some_iff, Prod.exists,
    lastKeyValue_eq_some_iff, Option.isSome_iff_exists]
  constructor
  · rintro ⟨key, proof, ⟨hget, hmax⟩, rfl⟩
    refine ⟨⟨proof, hget⟩, ?_⟩
    rintro id' ⟨proof', hget'⟩
    exact hmax id' proof' hget'
  · rintro ⟨⟨proof, hget⟩, hmax⟩
    refine ⟨id, proof, ⟨hget, ?_⟩, rfl⟩
    intro id' proof' hget'
    exact hmax id' ⟨proof', hget'⟩

/-- With the same circuit data, the answers are the proofs. -/
theorem sameAnswers_iff (ha : a.circuitData = some circuitData)
    (hb : b.circuitData = some circuitData) :
    SameAnswers a b ↔ ∀ id : AuthoritySetId, a.proofs[id]? = b.proofs[id]? := by
  constructor
  · rintro ⟨-, hproof⟩ id
    have hid := hproof id
    simp only [InMemoryProofStorage.getProofForAuthoritySetId, InMemoryProofStorage.getCircuitData,
      ha, hb] at hid
    cases hpa : a.proofs[id]? <;> cases hpb : b.proofs[id]? <;> simp_all
  · intro h
    constructor
    · apply Option.ext
      intro id
      simp only [getLatestAuthoritySetId_eq_some_iff, h]
    · intro id
      simp only [InMemoryProofStorage.getProofForAuthoritySetId,
        InMemoryProofStorage.getCircuitData, ha, hb, h]

end answers

/-! ## calls -/

section calls

variable {cache : InMemoryProofStorage}

/-- The circuit data are there with the first proof. -/
def Complete (cache : InMemoryProofStorage) : Prop :=
  cache.proofs.isEmpty = false → cache.circuitData.isSome

theorem getLatestAuthoritySetId_eq_none_iff :
    cache.getLatestAuthoritySetId = none ↔ cache.proofs.isEmpty = true := by
  rw [InMemoryProofStorage.getLatestAuthoritySetId, Option.map_eq_none_iff, lastKeyValue,
    List.getLast?_eq_none_iff, ← List.isEmpty_iff, Std.TreeMap.isEmpty_toList]

/-- What is found before an insertion is found after it. -/
theorem isSome_insert {proofs : Std.TreeMap AuthoritySetId Proof} {key : AuthoritySetId}
    (proof : Proof) (id : AuthoritySetId) (h : proofs[id]?.isSome) :
    (proofs.insert key proof)[id]?.isSome := by
  rw [Std.TreeMap.getElem?_insert]
  split
  · rfl
  · exact h

theorem harmless_update_iff {w : World} {proof : Proof} {id latest : AuthoritySetId}
    {writes : List Written} (hstorage : w.storage = some cache)
    (hlatest : cache.getLatestAuthoritySetId = some latest) :
    Harmless w (.update proof id writes) ↔
      (id = latest + 1 → cache.proofs[latest + 1]? = none →
        Arrive writes (cache.proofs.size + 2)) := by
  constructor
  · intro h hid hfree
    exact h cache latest hstorage hlatest hid hfree
  · intro h cache' latest' hstorage' hlatest' hid hfree
    rw [hstorage, Option.some.injEq] at hstorage'
    subst hstorage'
    rw [hlatest, Option.some.injEq] at hlatest'
    subst hlatest'
    exact h hid hfree

/-- What a call does: it is refused, it panics, or it changes the storage and saves it. -/
inductive Effect (w : World) (a : Action) (cache : InMemoryProofStorage) :
    Outcome × InMemoryProofStorage × Directory → Prop
  | refused (harmless : Harmless w a) (e : ProofStorageError) :
      Effect w a cache (.err e, cache, w.dir)
  | panicked (harmless : Harmless w a) (cache' : InMemoryProofStorage) :
      Effect w a cache (.panic, cache', w.dir)
  | saved (cache' : InMemoryProofStorage) (circuitData : CircuitData) (writes : List Written)
      (data : cache'.circuitData = some circuitData) (differs : ¬ SameAnswers cache' cache)
      (keeps : ∀ id : AuthoritySetId, cache.proofs[id]?.isSome → cache'.proofs[id]?.isSome)
      (harmless : Harmless w a ↔ Arrive writes (cache'.proofs.size + 1)) :
      Effect w a cache ((saveState cache' writes w.dir).1, cache',
        (saveState cache' writes w.dir).2)

theorem effect_init {w : World} (hstorage : w.storage = some cache)
    (proofWithCircuitData : ProofWithCircuitData) (genesis : AuthoritySetId)
    (writes : List Written) :
    Effect w (.init proofWithCircuitData genesis writes) cache
      (thenSave writes w.dir (cache.init proofWithCircuitData genesis)) := by
  unfold InMemoryProofStorage.init
  split
  · next hempty =>
    refine .saved _ _ writes rfl ?_ (isSome_insert _) ?_
    · intro hsame
      have hlatest := hsame.1
      rw [getLatestAuthoritySetId_eq_none_iff.mpr hempty,
        getLatestAuthoritySetId_eq_none_iff, Std.TreeMap.isEmpty_insert] at hlatest
      contradiction
    · have hsize : cache.proofs.size = 0 := by
        rwa [Std.TreeMap.isEmpty_eq_size_eq_zero, beq_iff_eq] at hempty
      have hcontains : cache.proofs.contains (genesis + 1) = false :=
        Std.TreeMap.isEmpty_iff_forall_contains.mp hempty _
      simp [Harmless, hstorage, hempty, Std.TreeMap.size_insert, hsize, hcontains]
  · next hempty => exact .refused (by simp [Harmless, hstorage, hempty]) _

/-- An update of a storage that holds no proof panics. -/
theorem harmless_update_of_none {w : World} {proof : Proof} {id : AuthoritySetId}
    {writes : List Written} (hstorage : w.storage = some cache)
    (hlatest : cache.getLatestAuthoritySetId = none) : Harmless w (.update proof id writes) := by
  intro cache' latest hstorage' hlatest'
  rw [hstorage, Option.some.injEq] at hstorage'
  rw [← hstorage', hlatest] at hlatest'
  contradiction

/-- The proof of the next set is new, and it is saved. -/
theorem effect_insert {w : World} {latest : AuthoritySetId} (hstorage : w.storage = some cache)
    (hcomplete : Complete cache) (hlatest : cache.getLatestAuthoritySetId = some latest)
    (hfree : cache.proofs[latest + 1]? = none) (proof : Proof) (writes : List Written) :
    Effect w (.update proof (latest + 1) writes) cache
      (thenSave writes w.dir
        (.ok, { cache with proofs := cache.proofs.insert (latest + 1) proof })) := by
  have hnonempty : cache.proofs.isEmpty = false := by
    by_contra hempty
    rw [Bool.not_eq_false, ← getLatestAuthoritySetId_eq_none_iff, hlatest] at hempty
    contradiction
  obtain ⟨circuitData, hdata⟩ := Option.isSome_iff_exists.mp (hcomplete hnonempty)
  refine .saved _ circuitData writes hdata ?_ (isSome_insert _) ?_
  · have hdata' : ({ cache with
        proofs := cache.proofs.insert (latest + 1) proof } :
        InMemoryProofStorage).circuitData = some circuitData := hdata
    intro hsame
    have hnew := (sameAnswers_iff hdata' hdata).mp hsame (latest + 1)
    simp [hfree] at hnew
  · have hcontains : cache.proofs.contains (latest + 1) = false := by
      rw [Std.TreeMap.contains_eq_isSome_getElem?, hfree]
      rfl
    rw [harmless_update_iff hstorage hlatest, Std.TreeMap.size_insert, hcontains]
    exact ⟨fun h => h rfl hfree, fun h _ _ => h⟩

theorem effect_update {w : World} (hstorage : w.storage = some cache) (hcomplete : Complete cache)
    (proof : Proof) (newAuthoritySetId : AuthoritySetId) (writes : List Written) :
    Effect w (.update proof newAuthoritySetId writes) cache
      (thenSave writes w.dir (cache.update proof newAuthoritySetId)) := by
  unfold InMemoryProofStorage.update
  split
  · next hlatest => exact .panicked (harmless_update_of_none hstorage hlatest) _
  · next latest hlatest =>
    split
    · next hne =>
      exact .refused ((harmless_update_iff hstorage hlatest).mpr fun heq => absurd heq hne) _
    · next hnew =>
      rw [not_not] at hnew
      subst hnew
      simp only
      split
      · next htaken =>
        refine .panicked ((harmless_update_iff hstorage hlatest).mpr ?_) _
        intro _ hfree
        rw [hfree] at htaken
        contradiction
      · next hfree =>
        exact effect_insert hstorage hcomplete hlatest (by simpa using hfree) proof writes

theorem effect_of_call {w : World} {a : Action} {r : Outcome × InMemoryProofStorage × Directory}
    (hstorage : w.storage = some cache) (hcomplete : Complete cache)
    (h : call w.dir cache a = some r) : Effect w a cache r := by
  cases a with
  | init proofWithCircuitData genesis writes =>
      cases h
      exact effect_init hstorage proofWithCircuitData genesis writes
  | update proof newAuthoritySetId writes =>
      cases h
      exact effect_update hstorage hcomplete proof newAuthoritySetId writes
  | restart listing => contradiction

end calls

/-! ## whole runs -/

/-- After a successful call the files hold the storage. -/
structure Inv (w : World) : Prop where
  complete : ∀ cache, w.storage = some cache → Complete cache
  saved : w.lastOk = true → ∃ cache, w.storage = some cache ∧ Saved w.dir cache

theorem inv_of_started {w : World} (h : Started w) : Inv w where
  complete := fun cache hcache => by rw [h.1] at hcache; contradiction
  saved := fun hok => by rw [h.2] at hok; contradiction

variable {w w' : World}

/-- A restart loads what is in the files. -/
theorem inv_restarted (h : Inv w) (listing : List FileName) :
    Inv (w.restarted (new w.dir listing)) := by
  rcases new_cases w.dir listing with ⟨hdata, hnew⟩ | ⟨bytes, hdata, -, hnew⟩ |
    ⟨bytes, cache, hdata, -, hnew, hcircuit, hproofs⟩
  · rw [hnew]
    refine ⟨fun cache hcache => ?_, fun hok => ?_⟩
    · cases hcache
      intro hempty
      simp at hempty
    · obtain ⟨cache, -, circuitData, -, hfile, -⟩ := h.saved hok
      rw [hdata] at hfile
      contradiction
  · rw [hnew]
    exact ⟨fun cache hcache => (nomatch hcache), fun hok => (nomatch hok)⟩
  · rw [hnew]
    refine ⟨fun cache' hcache => ?_, fun _ => ⟨cache, rfl, ⟨bytes⟩, hcircuit, hdata, ?_⟩⟩
    · cases hcache
      intro _
      rw [hcircuit]
      rfl
    · intro id proof hproof
      rw [hproofs id] at hproof
      split at hproof
      · obtain ⟨b, hb, rfl⟩ := Option.map_eq_some_iff.mp hproof
        exact hb
      · contradiction

theorem inv_called {cache : InMemoryProofStorage} {a : Action}
    {r : Outcome × InMemoryProofStorage × Directory} (h : Inv w) (hstorage : w.storage = some cache)
    (hcall : call w.dir cache a = some r) : Inv (World.called r) := by
  cases effect_of_call hstorage (h.complete cache hstorage) hcall with
  | refused _ e =>
      exact ⟨fun cache' hcache => by cases hcache; exact h.complete cache hstorage,
        fun hok => nomatch hok⟩
  | panicked _ cache' => exact ⟨fun cache hcache => (nomatch hcache), fun hok => (nomatch hok)⟩
  | saved cache' circuitData writes hdata =>
      have hcomplete : Complete cache' := fun _ => by rw [hdata]; rfl
      by_cases harrive : Arrive writes (cache'.proofs.size + 1)
      · obtain ⟨hok, hsaved, -⟩ := saveState_of_arrive w.dir hdata harrive
        rw [hok]
        exact ⟨fun cache hcache => by cases hcache; exact hcomplete, fun _ => ⟨cache', rfl, hsaved⟩⟩
      · rw [saveState_of_not_arrive hdata harrive]
        exact ⟨fun cache hcache => by cases hcache; exact hcomplete, fun hok => nomatch hok⟩

theorem step_cases {a : Action} (h : step w a = some w') :
    (∃ listing, a = .restart listing ∧ w' = w.restarted (new w.dir listing)) ∨
      ∃ cache r, w.storage = some cache ∧ call w.dir cache a = some r ∧ w' = World.called r := by
  cases a with
  | restart listing =>
      simp only [step] at h
      split at h
      · exact .inl ⟨listing, rfl, (Option.some.inj h).symm⟩
      · contradiction
  | _ =>
      simp only [step] at h
      split at h
      · contradiction
      · next cache hcache =>
        obtain ⟨r, hr, rfl⟩ := Option.map_eq_some_iff.mp h
        exact .inr ⟨cache, r, hcache, hr, rfl⟩

theorem Inv.step {a : Action} (h : Inv w) (hs : step w a = some w') : Inv w' := by
  rcases step_cases hs with ⟨listing, rfl, rfl⟩ | ⟨cache, r, hstorage, hcall, rfl⟩
  · exact inv_restarted h listing
  · exact inv_called h hstorage hcall

/-- A restart makes no call, so only the storage it loads is asked about. -/
theorem survives_restart_of {listing : List FileName} (hnew : (new w.dir listing).isSome)
    (hsame : ∀ cache cache', w.lastOk = true → w.storage = some cache →
      new w.dir listing = some cache' → SameAnswers cache' cache) :
    Survives w (.restart listing) where
  noPanic := by
    rintro _ ⟨⟩
    exact hnew
  answers := by
    rintro _ cache cache' ⟨⟩ hok hstorage hloaded
    exact hsame cache cache' hok hstorage hloaded
  unchanged _ _ _ _ _ hcall := nomatch hcall

/-- The proofs loaded from saved files answer like the storage when their ids are its ids. -/
theorem sameAnswers_loaded_iff {cache loaded : InMemoryProofStorage} {bytes : List UInt8}
    {listing : List FileName} (hsaved : Saved w.dir cache)
    (hdata : w.dir.lookup circuitDataBin = some bytes)
    (hcircuit : loaded.circuitData = some ⟨bytes⟩)
    (hproofs : ∀ id : AuthoritySetId, loaded.proofs[id]? =
      if some (some id) ∈ (reached w.dir listing).map foundValidatorSetId then
        (w.dir.lookup (proofBin id)).map Proof.mk
      else none) :
    SameAnswers loaded cache ↔ ∀ id : AuthoritySetId, cache.proofs[id]?.isSome ↔
      some (some id) ∈ (reached w.dir listing).map foundValidatorSetId := by
  obtain ⟨circuitData, hcircuit', hfile, hfiles⟩ := hsaved
  rw [hdata, Option.some.injEq] at hfile
  subst hfile
  rw [sameAnswers_iff hcircuit hcircuit']
  refine forall_congr' fun id => ?_
  rw [hproofs id]
  by_cases hreached : some (some id) ∈ (reached w.dir listing).map foundValidatorSetId
  · rw [if_pos hreached]
    obtain ⟨bytes, hbytes⟩ := Option.isSome_iff_exists.mp (isSome_lookup_of_reached hreached)
    cases hproof : cache.proofs[id]? with
    | none => simp [hbytes, hreached]
    | some proof =>
        rw [hfiles id proof hproof]
        simp [hreached]
  · rw [if_neg hreached]
    cases hproof : cache.proofs[id]? <;> simp [hreached]

theorem survives_restart_iff (h : Inv w) (listing : List FileName) :
    Survives w (.restart listing) ↔ Harmless w (.restart listing) := by
  rcases new_cases w.dir listing with ⟨hdata, hnew⟩ | ⟨bytes, hdata, ⟨name, hmem, hname⟩, hnew⟩ |
    ⟨bytes, loaded, hdata, hsafe, hnew, hcircuit, hproofs⟩
  · -- there are no files, so nothing was saved
    constructor
    · intro _ hfile
      rw [hdata] at hfile
      contradiction
    · intro _
      refine survives_restart_of (by rw [hnew]; rfl) fun cache cache' hok _ _ => ?_
      obtain ⟨cache, -, circuitData, -, hfile, -⟩ := h.saved hok
      rw [hdata] at hfile
      contradiction
  · -- the restart panics at a name
    constructor
    · intro hsurvives
      have hsome := hsurvives.noPanic listing rfl
      rw [hnew] at hsome
      contradiction
    · intro hharmless
      have hsome := (hharmless (by rw [hdata]; rfl)).1 name hmem
      rw [hname] at hsome
      contradiction
  · have hsame : ∀ cache, w.lastOk = true → w.storage = some cache →
        (SameAnswers loaded cache ↔ ∀ id : AuthoritySetId, cache.proofs[id]?.isSome ↔
          some (some id) ∈ (reached w.dir listing).map foundValidatorSetId) := by
      intro cache hok hstorage
      obtain ⟨cache', hstorage', hsaved⟩ := h.saved hok
      rw [hstorage, Option.some.injEq] at hstorage'
      subst hstorage'
      exact sameAnswers_loaded_iff hsaved hdata hcircuit hproofs
    constructor
    · intro hsurvives _
      exact ⟨hsafe, fun hok cache hstorage =>
        (hsame cache hok hstorage).mp
          (hsurvives.answers listing cache loaded rfl hok hstorage hnew)⟩
    · intro hharmless
      refine survives_restart_of (by rw [hnew]; rfl) fun cache cache' hok hstorage hnew' => ?_
      rw [hnew, Option.some.injEq] at hnew'
      subst hnew'
      exact (hsame cache hok hstorage).mpr
        ((hharmless (by rw [hdata]; rfl)).2 hok cache hstorage)

theorem survives_call_iff {cache : InMemoryProofStorage} {a : Action}
    {r : Outcome × InMemoryProofStorage × Directory} (h : Inv w) (hstorage : w.storage = some cache)
    (hcall : call w.dir cache a = some r) : Survives w a ↔ Harmless w a := by
  have hrestart : ∀ listing, a ≠ .restart listing := by
    rintro listing rfl
    contradiction
  -- a call is only asked about the answers after an error
  have hiff : Survives w a ↔ ∀ e, r.1 = .err e → SameAnswers r.2.1 cache := by
    constructor
    · rintro hsurvives e he
      refine hsurvives.unchanged cache e r.2.1 r.2.2 hstorage ?_
      rw [hcall, ← he]
    · intro hall
      refine ⟨fun listing ha => absurd ha (hrestart listing),
        fun listing _ _ ha => absurd ha (hrestart listing), ?_⟩
      intro cache₁ e cache' dir' hstorage' hcall'
      rw [hstorage, Option.some.injEq] at hstorage'
      subst hstorage'
      rw [hcall, Option.some.injEq] at hcall'
      subst hcall'
      exact hall e rfl
  rw [hiff]
  cases effect_of_call hstorage (h.complete cache hstorage) hcall with
  | refused hharmless e => exact ⟨fun _ => hharmless, fun _ _ _ => SameAnswers.refl cache⟩
  | panicked hharmless cache' => exact ⟨fun _ => hharmless, fun _ _ he => (nomatch he)⟩
  | saved cache' circuitData writes hdata hdiffer _ hharmless =>
      rw [hharmless]
      by_cases harrive : Arrive writes (cache'.proofs.size + 1)
      · obtain ⟨hok, -⟩ := saveState_of_arrive w.dir hdata harrive
        refine ⟨fun _ => harrive, fun _ e he => ?_⟩
        rw [hok] at he
        contradiction
      · refine ⟨fun hall => absurd (hall _ (saveState_of_not_arrive hdata harrive)) hdiffer, ?_⟩
        exact fun harrive' => absurd harrive' harrive

theorem survives_iff_harmless {a : Action} (h : Inv w) (hs : step w a = some w') :
    Survives w a ↔ Harmless w a := by
  rcases step_cases hs with ⟨listing, rfl, -⟩ | ⟨cache, r, hstorage, hcall, -⟩
  · exact survives_restart_iff h listing
  · exact survives_call_iff h hstorage hcall

/-! ## tidy directories -/

/-- No write of the call fails. -/
def WritesDone : Action → Prop
  | .init _ _ writes => ∀ w ∈ writes, w = .done
  | .update _ _ writes => ∀ w ∈ writes, w = .done
  | .restart _ => True

/-- The files of proofs are those of the storage, and there are none before the circuit data. -/
structure Tidy (w : World) : Prop where
  names : ∀ name ∈ w.dir, foundValidatorSetId name = some none ∨
    ∃ id, name = proofBin id ∧ ∀ cache, w.storage = some cache → cache.proofs[id]?.isSome
  circuitData : ∀ id, proofBin id ∈ w.dir → circuitDataBin ∈ w.dir

theorem Arrive.of_done {writes : List Written} (h : ∀ w ∈ writes, w = .done) (n : Nat) :
    Arrive writes n := fun w hw => h w (List.mem_of_mem_take hw)

/-- All names of a tidy directory can be read. -/
theorem Tidy.reached_eq (h : Tidy w) {listing : List FileName} (hperm : listing.Perm w.dir.keys) :
    reached w.dir listing = listing ∧ ∀ name ∈ listing, (foundValidatorSetId name).isSome := by
  have hlisting : ∀ name ∈ listing, name ∈ w.dir := fun name hname => hperm.mem_iff.mp hname
  constructor
  · refine List.takeWhile_eq_self_iff.mpr fun name hname => ?_
    rcases h.names name (hlisting name hname) with hfound | ⟨id, rfl, -⟩
    · simp [hfound]
    · simpa [foundValidatorSetId_proofBin, AList.lookup_isSome] using hlisting _ hname
  · intro name hname
    rcases h.names name (hlisting name hname) with hfound | ⟨id, rfl, -⟩
    · rw [hfound]
      rfl
    · rw [foundValidatorSetId_proofBin]
      rfl

/-- The ids in the names of a listing. -/
theorem mem_map_foundValidatorSetId (h : Tidy w) {listing : List FileName}
    (hperm : listing.Perm w.dir.keys) (id : AuthoritySetId) :
    some (some id) ∈ listing.map foundValidatorSetId ↔ proofBin id ∈ w.dir := by
  constructor
  · intro hmem
    obtain ⟨name, hname, hfound⟩ := List.mem_map.mp hmem
    have hdir : name ∈ w.dir := hperm.mem_iff.mp hname
    rcases h.names name hdir with hnone | ⟨id', rfl, -⟩
    · rw [hnone] at hfound
      cases hfound
    · rw [foundValidatorSetId_proofBin] at hfound
      cases hfound
      exact hdir
  · intro hdir
    exact List.mem_map.mpr ⟨_, hperm.mem_iff.mpr hdir, foundValidatorSetId_proofBin id⟩

theorem Tidy.harmless (h : Tidy w) (hinv : Inv w) {a : Action} (hdone : WritesDone a)
    (hs : step w a = some w') : Harmless w a := by
  cases a with
  | init proofWithCircuitData genesis writes => exact fun _ _ _ => Arrive.of_done hdone _
  | update proof id writes => exact fun _ _ _ _ _ _ => Arrive.of_done hdone _
  | restart listing =>
      have hperm : listing.Perm w.dir.keys := by
        by_contra hne
        simp [step, hne] at hs
      obtain ⟨hreached, hsafe⟩ := h.reached_eq hperm
      intro _
      rw [hreached]
      refine ⟨hsafe, fun hok cache hstorage id => ?_⟩
      rw [mem_map_foundValidatorSetId h hperm]
      obtain ⟨cache', hstorage', circuitData, -, -, hfiles⟩ := hinv.saved hok
      rw [hstorage, Option.some.injEq] at hstorage'
      subst hstorage'
      constructor
      · intro hcached
        obtain ⟨proof, hproof⟩ := Option.isSome_iff_exists.mp hcached
        exact AList.lookup_isSome.mp (by rw [hfiles id proof hproof]; rfl)
      · intro hdir
        rcases h.names _ hdir with hnone | ⟨id', hid, hcached⟩
        · rw [foundValidatorSetId_proofBin] at hnone
          cases hnone
        · rw [proofBin_injective hid]
          exact hcached cache hstorage

/-- A restart loads the proof of every file of a proof. -/
theorem Tidy.restarted (h : Tidy w) {listing : List FileName} (hperm : listing.Perm w.dir.keys) :
    Tidy (w.restarted (new w.dir listing)) := by
  have hkeep : (w.restarted (new w.dir listing)).dir = w.dir := by
    cases new w.dir listing <;> rfl
  refine ⟨fun name hname => ?_, fun id hid => ?_⟩
  · rw [hkeep] at hname
    refine (h.names name hname).imp_right ?_
    rintro ⟨id, rfl, -⟩
    refine ⟨id, rfl, fun loaded hloaded => ?_⟩
    have hdata := AList.lookup_isSome.mpr (h.circuitData id hname)
    rcases new_cases w.dir listing with ⟨hnone, -⟩ | ⟨-, -, -, hnew⟩ |
      ⟨bytes, cache, -, -, hnew, -, hproofs⟩
    · rw [hnone] at hdata
      contradiction
    · rw [hnew] at hloaded
      contradiction
    · rw [hnew] at hloaded
      cases hloaded
      have hreached : some (some id) ∈ (reached w.dir listing).map foundValidatorSetId := by
        rw [(h.reached_eq hperm).1]
        exact (mem_map_foundValidatorSetId h hperm id).mpr hname
      rw [hproofs id, if_pos hreached, Option.isSome_map]
      exact AList.lookup_isSome.mpr hname
  · rw [hkeep] at hid ⊢
    exact h.circuitData id hid

/-- A harmless call writes the files of the storage it leaves. -/
theorem Tidy.called (h : Tidy w) (hinv : Inv w) {a : Action} (hharmless : Harmless w a)
    {cache : InMemoryProofStorage} {r : Outcome × InMemoryProofStorage × Directory}
    (hstorage : w.storage = some cache) (hcall : call w.dir cache a = some r) :
    Tidy (World.called r) := by
  cases effect_of_call hstorage (hinv.complete cache hstorage) hcall with
  | refused _ e =>
      refine ⟨fun name hname => ?_, h.circuitData⟩
      refine (h.names name hname).imp_right ?_
      rintro ⟨id, hid, hcached⟩
      exact ⟨id, hid, fun cache' heq => by cases heq; exact hcached cache hstorage⟩
  | panicked _ cache' =>
      refine ⟨fun name hname => ?_, h.circuitData⟩
      exact (h.names name hname).imp_right fun ⟨id, hid, _⟩ => ⟨id, hid, fun _ heq => (nomatch heq)⟩
  | saved cache' circuitData writes hdata _ hkeeps hiff =>
      obtain ⟨hok, ⟨_, _, hfile, _⟩, hnames⟩ :=
        saveState_of_arrive w.dir hdata (hiff.mp hharmless)
      rw [hok]
      refine ⟨fun name hname => ?_,
        fun id hid => AList.lookup_isSome.mp (by rw [World.called, hfile]; rfl)⟩
      rcases hnames name hname with hold | rfl | ⟨id, hid, hcached⟩
      · refine (h.names name hold).imp_right ?_
        rintro ⟨id, hid, hcached⟩
        exact ⟨id, hid, fun _ heq => by cases heq; exact hkeeps id (hcached cache hstorage)⟩
      · exact .inl foundValidatorSetId_circuitDataBin
      · exact .inr ⟨id, hid, fun _ heq => by cases heq; exact hcached⟩

theorem Tidy.step (h : Tidy w) (hinv : Inv w) {a : Action} (hdone : WritesDone a)
    (hs : step w a = some w') : Tidy w' := by
  have hharmless := h.harmless hinv hdone hs
  rcases step_cases hs with ⟨listing, rfl, rfl⟩ | ⟨cache, r, hstorage, hcall, rfl⟩
  · have hperm : listing.Perm w.dir.keys := by
      by_contra hne
      simp [FileSystemProofStorage.step, hne] at hs
    exact h.restarted hperm
  · exact h.called hinv hharmless hstorage hcall

/-- From a directory in which no name is that of a proof and every name can be sliced, the steps
are harmless as long as no write fails. -/
theorem harmless_of_writesDone {past : List (World × Action)}
    (h : History step (fun w => Started w ∧ ∀ name ∈ w.dir, foundValidatorSetId name = some none)
      past w) (hdone : ∀ p ∈ past, WritesDone p.2) : ∀ p ∈ past, Harmless p.1 p.2 := by
  suffices hrun : (∀ p ∈ past, WritesDone p.2) →
      Inv w ∧ Tidy w ∧ ∀ p ∈ past, Harmless p.1 p.2 from (hrun hdone).2.2
  refine h.invariant
    (I := fun past w => (∀ p ∈ past, WritesDone p.2) →
      Inv w ∧ Tidy w ∧ ∀ p ∈ past, Harmless p.1 p.2) ?_ ?_
  · rintro w ⟨hstart, hforeign⟩ -
    refine ⟨inv_of_started hstart, ⟨fun name hname => .inl (hforeign name hname), ?_⟩,
      fun p hp => absurd hp List.not_mem_nil⟩
    intro id hid
    have hfound := hforeign _ hid
    rw [foundValidatorSetId_proofBin] at hfound
    cases hfound
  · intro past w a w' hpast hs hall
    obtain ⟨hinv, htidy, hharmless⟩ := hpast fun p hp => hall p (List.mem_cons_of_mem _ hp)
    have hdone : WritesDone a := hall (w, a) List.mem_cons_self
    refine ⟨hinv.step hs, htidy.step hinv hdone hs, fun p hp => ?_⟩
    rcases List.mem_cons.mp hp with rfl | hp
    · exact htidy.harmless hinv hdone hs
    · exact hharmless p hp

/-! ## the law -/

/-- **The storage survives restarts and failed writes** in the runs in which no write of a call
fails and a restart meets only names that it can read, with the ids of the storage. -/
theorem survives_iff (past : List (World × Action)) (w : World) (h : History step Started past w) :
    (∀ p ∈ past, Survives p.1 p.2) ↔ ∀ p ∈ past, Harmless p.1 p.2 := by
  suffices hrun : Inv w ∧ ∀ p ∈ past, Survives p.1 p.2 ↔ Harmless p.1 p.2 from
    forall₂_congr hrun.2
  refine h.invariant
    (I := fun past w => Inv w ∧ ∀ p ∈ past, Survives p.1 p.2 ↔ Harmless p.1 p.2) ?_ ?_
  · exact fun w hstart => ⟨inv_of_started hstart, fun p hp => absurd hp List.not_mem_nil⟩
  · rintro past w a w' ⟨hinv, hpast⟩ hs
    refine ⟨hinv.step hs, fun p hp => ?_⟩
    rcases List.mem_cons.mp hp with rfl | hp
    · exact survives_iff_harmless hinv hs
    · exact hpast p hp

/-- The state after a step. -/
def after (w : World) (a : Action) : World := (step w a).getD w

theorem step_eq_after {a : Action} (h : (step w a).isSome) : step w a = some (after w a) := by
  obtain ⟨w', hw'⟩ := Option.isSome_iff_exists.mp h
  rw [after, hw', Option.getD_some]

/-- `notes.txt` -/
def notesTxt : FileName := .utf8 ['n', 'o', 't', 'e', 's', '.', 't', 'x', 't']

def sampleWorld : World := ⟨AList.singleton notesTxt [1], none, false⟩

def sampleInit (writes : List Written) : Action := .init ⟨⟨[2]⟩, ⟨[3]⟩⟩ 4 writes

/-- The proof of a storage beside another file is read back. -/
theorem survives_iff_sample : ∃ past w, History step Started past w ∧
    past.map Prod.snd =
      [.restart [proofBin 5, notesTxt, circuitDataBin], sampleInit [], .restart [notesTxt]] ∧
    ∀ p ∈ past, Survives p.1 p.2 := by
  have hstart : Started sampleWorld ∧
      ∀ name ∈ sampleWorld.dir, foundValidatorSetId name = some none := by
    refine ⟨⟨rfl, rfl⟩, fun name hname => ?_⟩
    have hnotes : name = notesTxt := by simpa [sampleWorld, AList.mem_keys] using hname
    rw [hnotes]
    decide
  have hfirst : (step sampleWorld (.restart [notesTxt])).isSome := by decide
  have hinit : (step (after sampleWorld (.restart [notesTxt])) (sampleInit [])).isSome := by
    decide +kernel
  have hagain : (step (after (after sampleWorld (.restart [notesTxt])) (sampleInit []))
      (.restart [proofBin 5, notesTxt, circuitDataBin])).isSome := by
    decide +kernel
  have hbefore : History step
      (fun w => Started w ∧ ∀ name ∈ w.dir, foundValidatorSetId name = some none) [] sampleWorld :=
    .start hstart
  have h := ((hbefore.next (step_eq_after hfirst)).next (step_eq_after hinit)).next
    (step_eq_after hagain)
  have hstarted := h.mono fun _ hs => hs.1
  refine ⟨_, _, hstarted, rfl, (survives_iff _ _ hstarted).mpr (harmless_of_writesDone h ?_)⟩
  simp [sampleInit, WritesDone]

/-- A process that starts beside a file with a short name panics once there is a storage. -/
theorem short_name_panics :
    ¬ ∀ past w, History step Started past w → ∀ p ∈ past, Survives p.1 p.2 := by
  intro hall
  let w : World := ⟨AList.singleton (.utf8 ['a']) [1], none, false⟩
  have hfirst : (step w (.restart [.utf8 ['a']])).isSome := by decide
  have hinit : (step (after w (.restart [.utf8 ['a']])) (sampleInit [])).isSome := by
    decide +kernel
  have hagain : (step (after (after w (.restart [.utf8 ['a']])) (sampleInit []))
      (.restart [circuitDataBin, .utf8 ['a'], proofBin 5])).isSome := by
    decide +kernel
  have hbefore : History step Started [] w := .start ⟨rfl, rfl⟩
  have h := ((hbefore.next (step_eq_after hfirst)).next (step_eq_after hinit)).next
    (step_eq_after hagain)
  have hpanic := (hall _ _ h _ List.mem_cons_self).noPanic _ rfl
  revert hpanic
  decide +kernel

/-- A call whose first write fails returns an error, and its proof is there. -/
theorem failed_write_changes_answers :
    ¬ Survives (after ⟨∅, none, false⟩ (.restart [])) (sampleInit [.failed none]) := by
  intro h
  have hsame := (h.unchanged _ _ _ _ rfl rfl).1
  revert hsame
  decide +kernel

end GearBridges.FileSystemProofStorage
