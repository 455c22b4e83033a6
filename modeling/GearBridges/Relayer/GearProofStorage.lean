import GearBridges.ProofStorage.Program

/-!
# Relayer.GearProofStorage

The relayer's side of the proof storage (`GearProofStorage`): a proof is read back by its
authority set id.  `get_proof_for_authority_set_id_inner` takes the block of the id from a
recent state of the program and the proof from the state at the end of that block, and
asserts that this state is the one of the id.  What was read is cached, and so is every
proof that `update_inner` sends to the program, before the program has seen it.

The calls to the node may fail, and they are made one after the other while the chain goes
on: what is read as the recent state may be the state of any finished block.  `proof_read_back`
is about the chain and the storage side by side (`World`), as long as the cache holds no
other proof for an id than the one accepted for it.
-/

namespace GearBridges.ProofStorage

open FiniteMap Transition

inductive ProofStorageError where
  | notInitialized
  | notFound (authoritySetId : AuthoritySetId)
  | innerError
deriving DecidableEq, Repr

structure ProofWithCircuitData where
  circuitData : List UInt8
  proof : List UInt8
deriving DecidableEq

structure Cache where
  circuitData : Option (List UInt8) := none
  proofs : Std.TreeMap AuthoritySetId (List UInt8) := ∅

structure GearProofStorage where
  program : Option ActorId
  cache : Cache

/-- How a call ends: with a result, with an error, or in a failed assertion. -/
inductive Outcome (α : Type) where
  | ok (a : α)
  | err (e : ProofStorageError)
  | panic
deriving DecidableEq

/-- The answers of the node to the calls of one execution; `none` is a failed call. -/
structure Answers (H : Type) where
  circuitState : Option State
  latestState : Option State
  getBlockHash : Nat → Option H
  readStateAt : H → Option State

variable {H : Type}

/-- `read_program_state`, given the answer to `read_state_at`. -/
def readProgramState (self : GearProofStorage) (answer : Option State) :
    Except ProofStorageError State :=
  match self.program with
  | none => .error .notInitialized
  | some _ =>
      match answer with
      | none => .error .innerError
      | some state => .ok state

def getCircuitDataInner (self : GearProofStorage) (answers : Answers H) :
    Except ProofStorageError (List UInt8 × GearProofStorage) :=
  match self.cache.circuitData with
  | some circuitData => .ok (circuitData, self)
  | none =>
      match readProgramState self answers.circuitState with
      | .error e => .error e
      | .ok state =>
          let circuitData := state.latestProof.circuitData
          .ok (circuitData, { self with cache := { self.cache with circuitData := some circuitData } })

/-- `get_proof_for_authority_set_id_inner`: the outcome, and the storage with its cache
afterwards. -/
def getProofForAuthoritySetIdInner (self : GearProofStorage) (answers : Answers H)
    (authoritySetId : AuthoritySetId) : Outcome ProofWithCircuitData × GearProofStorage :=
  match getCircuitDataInner self answers with
  | .error e => (.err e, self)
  | .ok (circuitData, self) =>
      match self.cache.proofs[authoritySetId]? with
      | some proof => (.ok ⟨circuitData, proof⟩, self)
      | none =>
          match readProgramState self answers.latestState with
          | .error e => (.err e, self)
          | .ok state =>
              match state.proofBlocks[authoritySetId]? with
              | none => (.err (.notFound authoritySetId), self)
              | some block =>
                  match answers.getBlockHash block with
                  | none => (.err .innerError, self)
                  | some hash =>
                      match readProgramState self (answers.readStateAt hash) with
                      | .error e => (.err e, self)
                      | .ok state =>
                          if state.latestProof.authoritySetId = authoritySetId then
                            let proof := state.latestProof.proof
                            (.ok ⟨circuitData, proof⟩,
                              { self with
                                cache :=
                                  { self.cache with
                                    proofs := self.cache.proofs.insert authoritySetId proof } })
                          else (.panic, self)

structure UpdateStateMessage where
  payload : HandleMessage
  destination : ActorId
deriving DecidableEq

/-- `update_inner`, given the answer to the balance query of `report_balance_metric` and
whether the message sender still listens: the message sent, and the storage afterwards.  The
proof is in the cache also when there is no program to send it to. -/
def updateInner (self : GearProofStorage) (freeBalance : Option Nat) (listening : Bool)
    (proof : List UInt8) (newAuthoritySetId : AuthoritySetId) :
    Outcome UpdateStateMessage × GearProofStorage :=
  match freeBalance with
  | none => (.err .innerError, self)
  | some _ =>
      let self :=
        { self with
          cache := { self.cache with proofs := self.cache.proofs.insert newAuthoritySetId proof } }
      match self.program with
      | none => (.err .notInitialized, self)
      | some program =>
          if listening then (.ok ⟨⟨proof, newAuthoritySetId⟩, program⟩, self) else (.panic, self)

/-! ## the chain and the storage -/

/-- The chain, and the storage of the relayer beside it. -/
structure World where
  chain : Chain
  storage : GearProofStorage

/-- A step of the chain, a start of the relayer, with the program of its config file, or a
call of the storage with what the node answers to it. -/
inductive Call (H : Type) where
  | chain (a : Action)
  | new (program : Option ActorId)
  | read (answers : Answers H) (authoritySetId : AuthoritySetId)
  | update (freeBalance : Option Nat) (listening : Bool) (proof : List UInt8)
      (newAuthoritySetId : AuthoritySetId)

def callStep (w : World) : Call H → Option World
  | .chain a => (step w.chain a).map fun chain => { w with chain }
  | .new program => some { w with storage := { program, cache := {} } }
  | .read answers id =>
      some { w with storage := (getProofForAuthoritySetIdInner w.storage answers id).2 }
  | .update freeBalance listening proof id =>
      some { w with storage := (updateInner w.storage freeBalance listening proof id).2 }

/-! ## honest nodes -/

/-- What the node answers is on the chain: recent states are those of finished blocks, and
the state read at the hash of a block is the one at its end. -/
structure Answers.Honest (answers : Answers H) (c : Chain) : Prop where
  circuitState : ∀ s, answers.circuitState = some s → ∃ b, (b, s) ∈ c.archive
  latestState : ∀ s, answers.latestState = some s → ∃ b, (b, s) ∈ c.archive
  readStateAt : ∀ b hash s, answers.getBlockHash b = some hash →
    answers.readStateAt hash = some s → c.archive.lookup b = some s

/-- Every call is answered, those for finished blocks at least. -/
structure Answers.Complete (answers : Answers H) (c : Chain) : Prop where
  circuitState : answers.circuitState.isSome
  latestState : answers.latestState.isSome
  readStateAt : ∀ b, (c.archive.lookup b).isSome →
    ∃ hash, answers.getBlockHash b = some hash ∧ (answers.readStateAt hash).isSome

/-- The node that answers every call, for the last finished block. -/
def Answers.ofChain (c : Chain) : Answers Nat :=
  { circuitState := c.archive.head?.map Prod.snd
    latestState := c.archive.head?.map Prod.snd
    getBlockHash := some
    readStateAt := fun b => c.archive.lookup b }

theorem Answers.honest_ofChain (c : Chain) : (Answers.ofChain c).Honest c := by
  have hhead : ∀ s, c.archive.head?.map Prod.snd = some s → ∃ b, (b, s) ∈ c.archive := by
    intro s h
    obtain ⟨e, he, rfl⟩ := Option.map_eq_some_iff.mp h
    exact ⟨e.1, List.mem_of_head? he⟩
  refine ⟨hhead, hhead, fun b hash s hb hs => ?_⟩
  cases hb
  exact hs

theorem Answers.complete_ofChain {c : Chain} (h : c.archive.head?.isSome) :
    (Answers.ofChain c).Complete c := by
  have hstate : (c.archive.head?.map Prod.snd).isSome := by rwa [Option.isSome_map]
  exact ⟨hstate, hstate, fun b hb => ⟨b, rfl, hb⟩⟩

variable {genesis : Proof} {c : Chain} {answers : Answers H} {self : GearProofStorage}
  {id : AuthoritySetId}

theorem readProgramState_eq_ok {answer : Option State} {s : State}
    (h : readProgramState self answer = .ok s) : self.program.isSome ∧ answer = some s := by
  simp only [readProgramState] at h
  cases hp : self.program with
  | none => simp [hp] at h
  | some p =>
      cases ha : answer with
      | none => simp [hp, ha] at h
      | some s' =>
          simp only [hp, ha, Except.ok.injEq] at h
          subst h
          exact ⟨rfl, rfl⟩

theorem readProgramState_of_isSome (hprogram : self.program.isSome) (s : State) :
    readProgramState self (some s) = .ok s := by
  obtain ⟨p, hp⟩ := Option.isSome_iff_exists.mp hprogram
  simp [readProgramState, hp]

theorem getCircuitDataInner_isOk (hcomplete : answers.Complete c) (hprogram : self.program.isSome) :
    ∃ circuitData self', getCircuitDataInner self answers = .ok (circuitData, self') := by
  obtain ⟨s, hs⟩ := Option.isSome_iff_exists.mp hcomplete.circuitState
  cases hcache : self.cache.circuitData with
  | some data => exact ⟨data, self, by simp [getCircuitDataInner, hcache]⟩
  | none =>
      have hread := readProgramState_of_isSome hprogram s
      rw [← hs] at hread
      exact ⟨s.latestProof.circuitData, _, by simp only [getCircuitDataInner, hcache, hread]; rfl⟩

/-- The circuit data read is that of the genesis proof, which no message changes. -/
theorem getCircuitDataInner_spec (hk : Kept genesis c) (hh : answers.Honest c)
    {circuitData : List UInt8} {self' : GearProofStorage}
    (h : getCircuitDataInner self answers = .ok (circuitData, self')) :
    circuitData = self.cache.circuitData.getD genesis.circuitData ∧
      self'.program = self.program ∧ self'.cache.proofs = self.cache.proofs := by
  simp only [getCircuitDataInner] at h
  cases hcache : self.cache.circuitData with
  | some data =>
      simp only [hcache, Except.ok.injEq, Prod.mk.injEq] at h
      obtain ⟨rfl, rfl⟩ := h
      exact ⟨rfl, rfl, rfl⟩
  | none =>
      cases hread : readProgramState self answers.circuitState with
      | error e => simp [hcache, hread] at h
      | ok s =>
          simp only [hcache, hread, Except.ok.injEq, Prod.mk.injEq] at h
          obtain ⟨rfl, rfl⟩ := h
          obtain ⟨b, hb⟩ := hh.circuitState s (readProgramState_eq_ok hread).2
          exact ⟨(hk.older b s hb).2.1, rfl, rfl⟩

/-- The circuit data read is in the cache afterwards. -/
theorem getCircuitDataInner_circuitData {circuitData : List UInt8} {self' : GearProofStorage}
    (h : getCircuitDataInner self answers = .ok (circuitData, self')) :
    self'.cache.circuitData = some circuitData := by
  simp only [getCircuitDataInner] at h
  split at h
  · next data hcache =>
      cases h
      exact hcache
  · split at h
    · contradiction
    · cases h
      rfl

/-- A block found in a recent state is finished, and its state holds the proof of the id. -/
theorem archived_of_latestState (hk : Kept genesis c) (hh : answers.Honest c) {s : State}
    (hs : answers.latestState = some s) {block : Nat} (hblock : s.proofBlocks[id]? = some block) :
    ∃ s', c.archive.lookup block = some s' ∧ s'.latestProof.authoritySetId = id ∧
      c.accepted.lookup id = some s'.latestProof.proof := by
  obtain ⟨b, hb⟩ := hh.latestState s hs
  obtain ⟨hlt, -, hold⟩ := hk.older b s hb
  obtain ⟨hnow, hle⟩ := hold id block hblock
  exact hk.atEnd id block hnow (Nat.lt_of_le_of_lt hle hlt)

/-- What a read does: it fails, it gives the proof in the cache, or it gives the proof that
was accepted for the id and caches it.  The circuit data is that of the cache or of the
genesis proof, and nothing else in the cache changes. -/
theorem getProofForAuthoritySetIdInner_cases (hk : Kept genesis c) (hh : answers.Honest c)
    (self : GearProofStorage) (id : AuthoritySetId) :
    ∃ self', self'.cache.proofs = self.cache.proofs ∧
      (∀ data, self'.cache.circuitData = some data →
        data = self.cache.circuitData.getD genesis.circuitData) ∧
      ((∃ e, getProofForAuthoritySetIdInner self answers id = (.err e, self')) ∨
        (∃ proof, self.cache.proofs[id]? = some proof ∧
          getProofForAuthoritySetIdInner self answers id =
            (.ok ⟨self.cache.circuitData.getD genesis.circuitData, proof⟩, self')) ∨
        ∃ proof, c.accepted.lookup id = some proof ∧
          getProofForAuthoritySetIdInner self answers id =
            (.ok ⟨self.cache.circuitData.getD genesis.circuitData, proof⟩,
              { self' with
                cache := { self'.cache with proofs := self'.cache.proofs.insert id proof } })) := by
  unfold getProofForAuthoritySetIdInner
  split
  · next e _ => exact ⟨self, rfl, fun data h => by rw [h]; rfl, .inl ⟨e, rfl⟩⟩
  · next circuitData self' hcircuit =>
      obtain ⟨rfl, -, hproofs⟩ := getCircuitDataInner_spec hk hh hcircuit
      have hcached := getCircuitDataInner_circuitData hcircuit
      refine ⟨self', hproofs, fun data h => Option.some.inj (h.symm.trans hcached), ?_⟩
      rw [hproofs]
      split
      · next proof hproof => exact .inr (.inl ⟨proof, hproof, rfl⟩)
      · split
        · next e _ => exact .inl ⟨e, rfl⟩
        · next s hs =>
            split
            · exact .inl ⟨_, rfl⟩
            · next block hblock =>
                split
                · exact .inl ⟨_, rfl⟩
                · next hash hhash =>
                    split
                    · next e _ => exact .inl ⟨e, rfl⟩
                    · next s' hs' =>
                        obtain ⟨-, hlatest⟩ := readProgramState_eq_ok hs
                        obtain ⟨-, hread⟩ := readProgramState_eq_ok hs'
                        obtain ⟨s₁, hs₁, hid, hacc⟩ := archived_of_latestState hk hh hlatest hblock
                        have heq := hh.readStateAt block hash s' hhash hread
                        rw [hs₁] at heq
                        -- the state read is the archived one, so the assertion holds
                        obtain rfl := Option.some.inj heq
                        rw [if_pos hid]
                        exact .inr (.inr ⟨s₁.latestProof.proof, hacc, rfl⟩)

/-- The assertion holds whenever it is reached. -/
theorem getProofForAuthoritySetIdInner_ne_panic (hk : Kept genesis c) (hh : answers.Honest c)
    (self : GearProofStorage) (id : AuthoritySetId) :
    (getProofForAuthoritySetIdInner self answers id).1 ≠ .panic := by
  obtain ⟨self', -, -, ⟨e, h⟩ | ⟨proof, -, h⟩ | ⟨proof, -, h⟩⟩ :=
    getProofForAuthoritySetIdInner_cases hk hh self id
  all_goals
    rw [h]
    nofun

/-- When the node answers, the read of an id that is stored succeeds. -/
theorem getProofForAuthoritySetIdInner_isOk (hk : Kept genesis c) (hh : answers.Honest c)
    (hcomplete : answers.Complete c) (hprogram : self.program.isSome) {s : State}
    (hs : answers.latestState = some s) (hid : id ∈ s.proofBlocks) :
    ∃ proof, c.accepted.lookup id = some proof ∧
      ∃ result, (getProofForAuthoritySetIdInner self answers id).1 = .ok result := by
  obtain ⟨block, hblock⟩ := Option.isSome_iff_exists.mp (Std.TreeMap.mem_iff_isSome_getElem?.mp hid)
  obtain ⟨s', hs', hsid, hacc⟩ := archived_of_latestState hk hh hs hblock
  refine ⟨s'.latestProof.proof, hacc, ?_⟩
  obtain ⟨circuitData, self', hcircuit⟩ := getCircuitDataInner_isOk hcomplete hprogram
  obtain ⟨-, hsame, hproofs⟩ := getCircuitDataInner_spec hk hh hcircuit
  simp only [getProofForAuthoritySetIdInner, hcircuit, hproofs]
  cases hcached : self.cache.proofs[id]? with
  | some proof => exact ⟨_, rfl⟩
  | none =>
      obtain ⟨hash, hhash, hread⟩ := hcomplete.readStateAt block (by rw [hs']; rfl)
      obtain ⟨s₁, hs₁⟩ := Option.isSome_iff_exists.mp hread
      have heq := hh.readStateAt block hash s₁ hhash hs₁
      rw [hs'] at heq
      cases heq
      rw [← hsame] at hprogram
      simp [readProgramState_of_isSome hprogram, hs, hblock, hhash, hs₁, hsid]

/-! ## whole runs -/

/-- The program stores the proof of the message: it is from the admin and the next one, and
this block has none yet. -/
def Stores (c : Chain) (source : ActorId) (msg : HandleMessage) : Prop :=
  source = c.program.adminAddress ∧ msg.authoritySetId = c.latestId + 1 ∧
    ∀ k b, lastKeyValue c.proofBlocks = some (k, b) → b ≠ c.height

/-- What is asked of a step: no proof on top of the largest id, no proof stored while the
cache holds another one for its id, honest answers, and no update with another proof than
the one accepted for the id. -/
def Agreeing (w : World) : Call H → Prop
  | .chain (.message source payload) =>
      wraps w.chain (.message source payload) = false ∧
        ∀ msg, payload = some msg → Stores w.chain source msg →
          ∀ proof, w.storage.cache.proofs[msg.authoritySetId]? = some proof → proof = msg.proof
  | .chain .endBlock => True
  | .new _ => True
  | .read answers _ => answers.Honest w.chain
  | .update freeBalance _ proof id =>
      freeBalance.isSome → ∀ proof', w.chain.accepted.lookup id = some proof' → proof' = proof

/-- The invariant: beside the record of the chain, the cache holds the circuit data of the
genesis proof, and for an id that has an accepted proof no other one. -/
structure Consistent (genesis : Proof) (w : World) : Prop where
  kept : Kept genesis w.chain
  circuitData : ∀ data, w.storage.cache.circuitData = some data → data = genesis.circuitData
  proofs : ∀ (id : AuthoritySetId) proof, w.storage.cache.proofs[id]? = some proof →
    ∀ proof', w.chain.accepted.lookup id = some proof' → proof' = proof

variable {w w' : World}

theorem Consistent.chain (hw : Consistent genesis w) {a : Action}
    (hok : Agreeing w (.chain a : Call H)) {c' : Chain} (h : step w.chain a = some c') :
    Consistent genesis { w with chain := c' } := by
  obtain rfl | ⟨msg, rfl, hid, hblock, rfl⟩ | ⟨rfl, rfl⟩ := step_cases h
  · exact hw
  · refine ⟨hw.kept.step hok.1 h, hw.circuitData, fun id proof hproof proof' hacc => ?_⟩
    rw [Chain.store, List.lookup_cons] at hacc
    split at hacc
    · next heq =>
        cases hacc
        rw [beq_iff_eq.mp heq] at hproof
        exact (hok.2 msg rfl ⟨rfl, hid, hblock⟩ proof hproof).symm
    · exact hw.proofs id proof hproof proof' hacc
  · exact ⟨hw.kept.endBlock, hw.circuitData, hw.proofs⟩

theorem Consistent.getD_circuitData (hw : Consistent genesis w) :
    w.storage.cache.circuitData.getD genesis.circuitData = genesis.circuitData := by
  cases hdata : w.storage.cache.circuitData with
  | none => rfl
  | some data => exact hw.circuitData data hdata

/-- A read returns the proof accepted for the id, if there is one. -/
theorem Consistent.result_eq (hw : Consistent genesis w) (hh : answers.Honest w.chain)
    {result : ProofWithCircuitData} {proof : List UInt8}
    (hresult : (getProofForAuthoritySetIdInner w.storage answers id).1 = .ok result)
    (hacc : w.chain.accepted.lookup id = some proof) : result = ⟨genesis.circuitData, proof⟩ := by
  obtain ⟨self', -, -, ⟨e, h⟩ | ⟨cached, hcached, h⟩ | ⟨read, hread, h⟩⟩ :=
    getProofForAuthoritySetIdInner_cases hw.kept hh w.storage id
  · rw [h] at hresult
    contradiction
  · rw [h, hw.getD_circuitData] at hresult
    cases hresult
    rw [hw.proofs id cached hcached proof hacc]
  · rw [h, hw.getD_circuitData] at hresult
    cases hresult
    rw [Option.some.inj (hread.symm.trans hacc)]

theorem Consistent.read (hw : Consistent genesis w) (hh : answers.Honest w.chain)
    (id : AuthoritySetId) :
    Consistent genesis
      { w with storage := (getProofForAuthoritySetIdInner w.storage answers id).2 } := by
  have hdata : ∀ data, data = w.storage.cache.circuitData.getD genesis.circuitData →
      data = genesis.circuitData := fun data h => h.trans hw.getD_circuitData
  obtain ⟨self', hproofs, hcircuit, ⟨e, h⟩ | ⟨proof, -, h⟩ | ⟨proof, hacc, h⟩⟩ :=
    getProofForAuthoritySetIdInner_cases hw.kept hh w.storage id
  · rw [h]
    exact ⟨hw.kept, fun data hd => hdata data (hcircuit data hd), hproofs ▸ hw.proofs⟩
  · rw [h]
    exact ⟨hw.kept, fun data hd => hdata data (hcircuit data hd), hproofs ▸ hw.proofs⟩
  · rw [h]
    refine ⟨hw.kept, fun data hd => hdata data (hcircuit data hd),
      fun id' cached hcached proof' hacc' => ?_⟩
    simp only [Std.TreeMap.getElem?_insert, hproofs] at hcached
    split at hcached
    · next heq =>
        cases hcached
        rw [← Std.LawfulEqCmp.eq_of_compare heq, hacc] at hacc'
        exact (Option.some.inj hacc').symm
    · exact hw.proofs id' cached hcached proof' hacc'

theorem Consistent.update (hw : Consistent genesis w) {freeBalance : Option Nat}
    {listening : Bool} {proof : List UInt8}
    (hok : Agreeing w (.update freeBalance listening proof id : Call H)) :
    Consistent genesis
      { w with storage := (updateInner w.storage freeBalance listening proof id).2 } := by
  cases freeBalance with
  | none => exact hw
  | some balance =>
      have hcache : (updateInner w.storage (some balance) listening proof id).2.cache =
          { w.storage.cache with proofs := w.storage.cache.proofs.insert id proof } := by
        simp only [updateInner]
        split
        · rfl
        · split <;> rfl
      refine ⟨hw.kept, fun data h => ?_, fun id' p h p' hacc => ?_⟩
      · rw [hcache] at h
        exact hw.circuitData data h
      rw [hcache, Std.TreeMap.getElem?_insert] at h
      split at h
      · next heq =>
          cases h
          exact hok rfl p' (Std.LawfulEqCmp.eq_of_compare heq ▸ hacc)
      · exact hw.proofs id' p h p' hacc

/-- **Step lemma**: the chain, the reads and the updates keep the cache and the chain in
agreement. -/
theorem Consistent.step (hw : Consistent genesis w) {call : Call H} (hok : Agreeing w call)
    (h : callStep w call = some w') : Consistent genesis w' := by
  cases call with
  | chain a =>
      obtain ⟨c', hstep, rfl⟩ := Option.map_eq_some_iff.mp h
      exact hw.chain hok hstep
  | new program =>
      cases h
      exact ⟨hw.kept, by simp, by simp⟩
  | read answers id =>
      cases h
      exact hw.read hok id
  | update freeBalance listening proof id =>
      cases h
      exact hw.update hok

/-- The chain in the block of the upload, with nothing in the cache of the storage. -/
def uploadedWorld (admin : ActorId) (genesis : Proof) (block : Nat) (program : Option ActorId) :
    World :=
  ⟨uploaded admin genesis block, ⟨program, {}⟩⟩

/-- The runs of the chain and the storage whose steps all agree. -/
abbrev Agreed (H : Type) (admin : ActorId) (genesis : Proof) (block : Nat)
    (program : Option ActorId) : World → Prop :=
  Reachable callStep (Agreeing (H := H)) (· = uploadedWorld admin genesis block program)

/-- **Run lemma.** -/
theorem consistent_of_agreed {admin : ActorId} {block : Nat} {program : Option ActorId}
    (h : Agreed H admin genesis block program w) : Consistent genesis w := by
  refine h.invariant (I := Consistent genesis) ?_ fun _ _ _ hw hok hs => hw.step hok hs
  intro s hs
  rw [show s = uploadedWorld admin genesis block program from hs]
  exact ⟨kept_uploaded admin genesis block, by simp [uploadedWorld], by simp [uploadedWorld]⟩

/-- A run of the chain alone, beside a storage that does nothing. -/
theorem agreed_of_ordinary (H : Type) {admin : ActorId} {block : Nat} {program : Option ActorId}
    (h : Ordinary admin genesis block c) :
    Agreed H admin genesis block program ⟨c, ⟨program, {}⟩⟩ := by
  induction h with
  | start hs => exact .start (by rw [hs]; rfl)
  | @next c c' a _ hok hs ih =>
      refine .next (a := .chain a) ih ?_ (by rw [callStep, hs]; rfl)
      cases a with
      | message source payload => exact ⟨hok, fun _ _ _ _ hcached => by simp at hcached⟩
      | endBlock => trivial

/-- **Reading a proof back**: in every run of the chain and the storage whose steps agree,
the ids stored are contiguous, their blocks increase and the state at the end of the block
of an id holds the proof accepted for it.  So the assertion never fails, a read for an id
with an accepted proof returns no other one, and it returns that one when the node answers. -/
theorem proof_read_back {H : Type} {admin : ActorId} {block : Nat} {program : Option ActorId}
    (h : Agreed H admin genesis block program w) :
    Recorded genesis.authoritySetId w.chain ∧
    ∀ (H : Type) (answers : Answers H) (id : AuthoritySetId), answers.Honest w.chain →
      (getProofForAuthoritySetIdInner w.storage answers id).1 ≠ .panic ∧
      (∀ result proof, (getProofForAuthoritySetIdInner w.storage answers id).1 = .ok result →
        w.chain.accepted.lookup id = some proof → result = ⟨genesis.circuitData, proof⟩) ∧
      (answers.Complete w.chain → w.storage.program.isSome →
        ∀ s, answers.latestState = some s → id ∈ s.proofBlocks →
          ∃ proof, w.chain.accepted.lookup id = some proof ∧
            (getProofForAuthoritySetIdInner w.storage answers id).1 =
              .ok ⟨genesis.circuitData, proof⟩) := by
  have hw := consistent_of_agreed h
  refine ⟨hw.kept.toRecorded, fun H answers id hh =>
    ⟨getProofForAuthoritySetIdInner_ne_panic hw.kept hh w.storage id,
      fun result proof hresult hacc => ?_, fun hcomplete hprogram s hs hid => ?_⟩⟩
  · exact hw.result_eq hh hresult hacc
  · obtain ⟨proof, hacc, hread⟩ :=
      getProofForAuthoritySetIdInner_isOk hw.kept hh hcomplete hprogram hs hid
    obtain ⟨result, hread⟩ := hread
    exact ⟨proof, hacc, by rw [hread, hw.result_eq hh hread hacc]⟩

/-- A genesis proof for set 5, uploaded in block 1; the storage sends the proof for set 6.
In block 2 a stranger's proof is refused and the one sent is stored. -/
theorem proof_read_back_six : ∃ w, Agreed Nat 1 ⟨[9], [5], 5⟩ 1 (some 2) w ∧
    w.storage.cache.proofs[(6 : UInt64)]? = some [6] ∧ Recorded 5 w.chain ∧
    (getProofForAuthoritySetIdInner w.storage (.ofChain w.chain) 6).1 = .ok ⟨[9], [6]⟩ := by
  have hend : Agreed Nat 1 ⟨[9], [5], 5⟩ 1 (some 2) _ :=
    .next (a := .chain .endBlock) (.start rfl) trivial rfl
  have hupdate : Agreed Nat 1 ⟨[9], [5], 5⟩ 1 (some 2) _ :=
    .next (a := .update (some 0) true [6] 6) hend (fun _ _ hacc => by contradiction) rfl
  have hstranger : Agreed Nat 1 ⟨[9], [5], 5⟩ 1 (some 2) _ :=
    .next (a := .chain (.message 3 (some ⟨[66], 6⟩))) hupdate
      ⟨by decide +kernel, fun _ _ hstores => absurd hstores.1 (by decide +kernel)⟩ rfl
  have hstore : Agreed Nat 1 ⟨[9], [5], 5⟩ 1 (some 2) _ :=
    .next (a := .chain (.message 1 (some ⟨[6], 6⟩))) hstranger
      ⟨by decide +kernel, fun _ hmsg _ _ hproof => by
        cases hmsg
        exact (Option.some.inj hproof).symm⟩ rfl
  have hfinal : Agreed Nat 1 ⟨[9], [5], 5⟩ 1 (some 2) _ :=
    .next (a := .chain .endBlock) hstore trivial rfl
  obtain ⟨hrecorded, hread⟩ := proof_read_back hfinal
  obtain ⟨proof, hacc, hproof⟩ := (hread Nat (.ofChain _) 6 (Answers.honest_ofChain _)).2.2
    (Answers.complete_ofChain rfl) rfl _ rfl
    (Std.TreeMap.mem_iff_contains.mpr (by decide +kernel))
  have hsix : proof = [6] := Option.some.inj (hacc.symm.trans (by decide +kernel))
  exact ⟨_, hfinal, by decide +kernel, hrecorded, by rw [hproof, hsix]⟩

/-- A genesis proof for the largest id: the proof for id zero is accepted, the last key
remains the genesis one, and a second proof is accepted in the same block.  And a proof that
is sent for a set stays in the cache, and is what a read returns, also when the program
stored another one. -/
theorem proof_not_read_back :
    (∃ w, Reachable (callStep (H := Nat)) free
        (· = uploadedWorld 1 ⟨[9], [5], 0xffffffffffffffff⟩ 1 (some 2)) w ∧
      ¬ Recorded 0xffffffffffffffff w.chain ∧
      ∃ answers : Answers Nat, answers.Honest w.chain ∧
        (getProofForAuthoritySetIdInner w.storage answers 0).1 = .panic) ∧
    ∃ w, Reachable (callStep (H := Nat)) free (· = uploadedWorld 1 ⟨[9], [5], 5⟩ 1 (some 2)) w ∧
      w.chain.accepted.lookup 6 = some [6] ∧
      ∃ answers : Answers Nat, answers.Honest w.chain ∧
        (getProofForAuthoritySetIdInner w.storage answers 6).1 = .ok ⟨[9], [66]⟩ := by
  constructor
  · obtain ⟨w, hw, hp⟩ := @exists_reachable_of_exec _ _ (callStep (H := Nat)) free _
      (· = uploadedWorld 1 ⟨[9], [5], 0xffffffffffffffff⟩ 1 (some 2))
      (uploadedWorld 1 ⟨[9], [5], 0xffffffffffffffff⟩ 1 (some 2)) rfl
      [.chain .endBlock, .chain (.message 1 (some ⟨[0], 0⟩)),
        .chain (.message 1 (some ⟨[1], 1⟩)), .chain .endBlock]
      (fun w => w.chain.proofBlocks.contains 0 &&
        decide ((getProofForAuthoritySetIdInner w.storage (.ofChain w.chain) 0).1 = .panic))
      (by decide +kernel)
    rw [Bool.and_eq_true, decide_eq_true_eq] at hp
    refine ⟨w, hw, fun hr => ?_, .ofChain w.chain, Answers.honest_ofChain w.chain, hp.2⟩
    have hzero := ((hr.contiguous 0).mp (Std.TreeMap.mem_iff_contains.mpr hp.1)).1
    exact absurd hzero (by decide)
  · obtain ⟨w, hw, hp⟩ := @exists_reachable_of_exec _ _ (callStep (H := Nat)) free _
      (· = uploadedWorld 1 ⟨[9], [5], 5⟩ 1 (some 2))
      (uploadedWorld 1 ⟨[9], [5], 5⟩ 1 (some 2)) rfl
      [.chain .endBlock, .chain (.message 1 (some ⟨[6], 6⟩)), .update (some 0) true [66] 6,
        .chain (.message 1 (some ⟨[66], 6⟩)), .chain .endBlock]
      (fun w => decide (w.chain.accepted.lookup 6 = some [6]) &&
        decide ((getProofForAuthoritySetIdInner w.storage (.ofChain w.chain) 6).1 =
          .ok ⟨[9], [66]⟩)) (by decide +kernel)
    rw [Bool.and_eq_true, decide_eq_true_eq, decide_eq_true_eq] at hp
    exact ⟨w, hw, hp.1, .ofChain w.chain, Answers.honest_ofChain w.chain, hp.2⟩

end GearBridges.ProofStorage
