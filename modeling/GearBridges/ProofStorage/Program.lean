import GearBridges.Lib.FiniteMap
import GearBridges.Lib.Transition
import Mathlib.Data.UInt

/-!
# ProofStorage.Program

The `proof-storage` program, which keeps the latest proof of the validator set chain and
the block in which each authority set id was stored.  Older proofs are read back from the
states of older blocks, so the program stores at most one proof in a block.

The chain executes messages in the block that is being built and archives the state of the
program when the block ends.  `Recorded` says what the archive is good for: the ids stored
are the ids from the genesis one to the latest, their blocks increase, and the state at the
end of the block of an id holds the proof that was accepted for it.  It is kept by every step
but one (`Recorded.step`): `authority_set_id + 1` is computed in `u64`, and the proof that
comes on top of the largest id starts again from zero.
-/

namespace GearBridges.ProofStorage

open FiniteMap Transition

/-! ## the program -/

/-- Address of a Gear actor (32 bytes). -/
abbrev ActorId := BitVec 256

abbrev AuthoritySetId := UInt64

structure Proof where
  circuitData : List UInt8
  proof : List UInt8
  authoritySetId : AuthoritySetId
deriving DecidableEq

structure InitMessage where
  genesisProof : Proof

structure HandleMessage where
  proof : List UInt8
  authoritySetId : AuthoritySetId
deriving DecidableEq

structure State where
  latestProof : Proof
  proofBlocks : Std.TreeMap AuthoritySetId Nat

inductive Error where
  | authoritySetIdNotSequential
  | manyProofsSubmittedInSameBlock
deriving DecidableEq, Repr

/-- The statics of the program. -/
structure Program where
  adminAddress : ActorId
  state : State

/-- `init`, executed in block `block`. -/
def init (source : ActorId) (msg : InitMessage) (block : Nat) : Program :=
  { adminAddress := source
    state :=
      { latestProof := msg.genesisProof
        proofBlocks := (∅ : Std.TreeMap AuthoritySetId Nat).insert msg.genesisProof.authoritySetId block } }

/-- The state with the proof of `msg` stored in block `block`. -/
def State.store (s : State) (msg : HandleMessage) (block : Nat) : State :=
  { latestProof :=
      { s.latestProof with proof := msg.proof, authoritySetId := msg.authoritySetId }
    proofBlocks := s.proofBlocks.insert msg.authoritySetId block }

/-- `handle`, executed in block `block`: the reply and the program afterwards, or `none` when
it panics.  A payload that does not decode is `none`. -/
def handle (p : Program) (source : ActorId) (payload : Option HandleMessage) (block : Nat) :
    Option (Except Error Unit × Program) :=
  if source ≠ p.adminAddress then none
  else
    match payload with
    | none => none
    | some msg =>
        -- the addition wraps around, as it does for `u64` in a release build
        if msg.authoritySetId ≠ p.state.latestProof.authoritySetId + 1 then
          some (.error .authoritySetIdNotSequential, p)
        else if (lastKeyValue p.state.proofBlocks).any fun e => e.2 == block then
          some (.error .manyProofsSubmittedInSameBlock, p)
        else if msg.authoritySetId ∈ p.state.proofBlocks then none
        else some (.ok (), { p with state := p.state.store msg block })

/-- What a message that does not panic does: it is refused and changes nothing, because it is
not the next proof or the block has one already, or it is the next proof and is stored. -/
theorem handle_cases {p p' : Program} {source : ActorId} {payload : Option HandleMessage}
    {block : Nat} {r : Except Error Unit} (h : handle p source payload block = some (r, p')) :
    source = p.adminAddress ∧ ∃ msg, payload = some msg ∧
      (((∃ e, r = .error e) ∧ p' = p ∧
          (msg.authoritySetId = p.state.latestProof.authoritySetId + 1 →
            (lastKeyValue p.state.proofBlocks).any (fun e => e.2 == block) = true)) ∨
        (r = .ok () ∧ msg.authoritySetId = p.state.latestProof.authoritySetId + 1 ∧
          (∀ k b, lastKeyValue p.state.proofBlocks = some (k, b) → b ≠ block) ∧
          p' = { p with state := p.state.store msg block })) := by
  simp only [handle, ne_eq, ite_not] at h
  split at h
  · next hsource =>
      refine ⟨hsource, ?_⟩
      cases payload with
      | none => contradiction
      | some msg =>
          refine ⟨msg, rfl, ?_⟩
          simp only at h
          split at h
          · next hid =>
              split at h
              · next hblock =>
                  cases h
                  exact .inl ⟨⟨_, rfl⟩, rfl, fun _ => hblock⟩
              · next hblock =>
                  split at h
                  · contradiction
                  · cases h
                    refine .inr ⟨rfl, hid, fun k b hlast hb => hblock ?_, rfl⟩
                    rw [hlast, Option.any_some, hb]
                    exact beq_self_eq_true block
          · next hid =>
              cases h
              exact .inl ⟨⟨_, rfl⟩, rfl, fun heq => absurd heq hid⟩
  · contradiction

/-! ## the chain -/

/-- The chain as far as the program is concerned: the block being built, the states archived
at the end of earlier blocks, newest first, and the proofs that were accepted, newest first. -/
structure Chain where
  program : Program
  height : Nat
  archive : List (Nat × State)
  accepted : List (AuthoritySetId × List UInt8)

inductive Action where
  | message (source : ActorId) (payload : Option HandleMessage)
  | endBlock

/-- The chain in the block in which the program is uploaded. -/
def uploaded (admin : ActorId) (genesis : Proof) (block : Nat) : Chain :=
  { program := init admin ⟨genesis⟩ block
    height := block
    archive := []
    accepted := [(genesis.authoritySetId, genesis.proof)] }

/-- The proofs accepted after a message that was answered with `r`. -/
def recordAccepted (accepted : List (AuthoritySetId × List UInt8)) :
    Option HandleMessage → Except Error Unit → List (AuthoritySetId × List UInt8)
  | some msg, .ok () => (msg.authoritySetId, msg.proof) :: accepted
  | _, _ => accepted

/-- The chain with the proof of `msg` stored. -/
def Chain.store (c : Chain) (msg : HandleMessage) : Chain :=
  { c with
    program := { c.program with state := c.program.state.store msg c.height }
    accepted := (msg.authoritySetId, msg.proof) :: c.accepted }

/-- The next block, with the state at the end of this one in the archive. -/
def Chain.endBlock (c : Chain) : Chain :=
  { c with height := c.height + 1, archive := (c.height, c.program.state) :: c.archive }

/-- One step of the chain.  A message that panics leaves everything as it was. -/
def step (c : Chain) : Action → Option Chain
  | .message source payload =>
      match handle c.program source payload c.height with
      | none => some c
      | some (r, p) => some { c with program := p, accepted := recordAccepted c.accepted payload r }
  | .endBlock => some c.endBlock

/-- The latest id stored. -/
def Chain.latestId (c : Chain) : AuthoritySetId := c.program.state.latestProof.authoritySetId

/-- The blocks of the ids stored. -/
def Chain.proofBlocks (c : Chain) : Std.TreeMap AuthoritySetId Nat := c.program.state.proofBlocks

@[simp] theorem latestId_store (c : Chain) (msg : HandleMessage) :
    (c.store msg).latestId = msg.authoritySetId := rfl

theorem getElem?_store (c : Chain) (msg : HandleMessage) (id : AuthoritySetId) :
    (c.store msg).proofBlocks[id]? =
      if id = msg.authoritySetId then some c.height else c.proofBlocks[id]? := by
  show (c.proofBlocks.insert msg.authoritySetId c.height)[id]? = _
  rw [Std.TreeMap.getElem?_insert]
  by_cases h : id = msg.authoritySetId
  · rw [if_pos h, if_pos (by rw [h]; exact Std.ReflCmp.compare_self)]
  · rw [if_neg h, if_neg fun heq => h (Std.LawfulEqCmp.eq_of_compare heq).symm]

/-- The proof that comes on top of the largest id, and is stored under id zero. -/
def wraps (c : Chain) : Action → Bool
  | .message source (some msg) =>
      source == c.program.adminAddress && c.latestId.toNat + 1 == 2 ^ 64 && msg.authoritySetId == 0
  | _ => false

/-- What a step does: it leaves the program as it was, it stores the next proof, or it ends
the block. -/
theorem step_cases {c c' : Chain} {a : Action} (h : step c a = some c') :
    c' = c ∨
    (∃ msg, a = .message c.program.adminAddress (some msg) ∧
      msg.authoritySetId = c.latestId + 1 ∧
      (∀ k b, lastKeyValue c.proofBlocks = some (k, b) → b ≠ c.height) ∧
      c' = c.store msg) ∨
    (a = .endBlock ∧ c' = c.endBlock) := by
  cases a with
  | endBlock => exact .inr (.inr ⟨rfl, (Option.some.inj h).symm⟩)
  | message source payload =>
      simp only [step] at h
      cases hh : handle c.program source payload c.height with
      | none =>
          rw [hh] at h
          exact .inl (Option.some.inj h).symm
      | some out =>
          obtain ⟨r, p⟩ := out
          rw [hh] at h
          cases h
          obtain ⟨rfl, msg, rfl, ⟨⟨e, rfl⟩, rfl, -⟩ | ⟨rfl, hid, hblock, rfl⟩⟩ := handle_cases hh
          · exact .inl rfl
          · exact .inr (.inl ⟨msg, rfl, hid, hblock, rfl⟩)

/-! ## what the archive is good for -/

/-- The chain records what was stored: the ids from `genesis` to the latest one, in blocks
that increase, and at the end of the block of an id the proof that was accepted for it. -/
structure Recorded (genesis : AuthoritySetId) (c : Chain) : Prop where
  contiguous : ∀ id : AuthoritySetId, id ∈ c.proofBlocks ↔ genesis ≤ id ∧ id ≤ c.latestId
  increasing : ∀ (id id' : AuthoritySetId) (b b' : Nat), id < id' → c.proofBlocks[id]? = some b →
    c.proofBlocks[id']? = some b' → b < b'
  notLater : ∀ (id : AuthoritySetId) (b : Nat), c.proofBlocks[id]? = some b → b ≤ c.height
  atEnd : ∀ (id : AuthoritySetId) (b : Nat), c.proofBlocks[id]? = some b → b < c.height →
    ∃ s, c.archive.lookup b = some s ∧ s.latestProof.authoritySetId = id ∧
      c.accepted.lookup id = some s.latestProof.proof

/-- The invariant of the chain: beside `Recorded`, what it needs of the latest proof and of
the archive. -/
structure Kept (genesis : Proof) (c : Chain) : Prop extends Recorded genesis.authoritySetId c where
  started : genesis.authoritySetId ≤ c.latestId
  latest : c.accepted.lookup c.latestId = some c.program.state.latestProof.proof
  circuitData : c.program.state.latestProof.circuitData = genesis.circuitData
  older : ∀ b s, (b, s) ∈ c.archive → b < c.height ∧
    s.latestProof.circuitData = genesis.circuitData ∧
    ∀ (id : AuthoritySetId) (b' : Nat), s.proofBlocks[id]? = some b' → c.proofBlocks[id]? = some b' ∧ b' ≤ b

variable {genesis : Proof} {c c' : Chain} {a : Action}

/-- The latest id is the last key, so its block is the one that `handle` looks at. -/
theorem Kept.last_key_value (hk : Kept genesis c) :
    ∃ b, lastKeyValue c.proofBlocks = some (c.latestId, b) := by
  have hmem : c.latestId ∈ c.proofBlocks := (hk.contiguous _).mpr ⟨hk.started, UInt64.le_refl _⟩
  refine ⟨c.proofBlocks[c.latestId], lastKeyValue_eq_some_iff.mpr ⟨?_, fun k' b' hk' => ?_⟩⟩
  · exact Std.TreeMap.getElem?_eq_some_getElem hmem
  · have hin : k' ∈ c.proofBlocks := Std.TreeMap.mem_iff_isSome_getElem?.mpr (by simp [hk'])
    exact Std.isLE_compare.mpr ((hk.contiguous k').mp hin).2

theorem kept_uploaded (admin : ActorId) (genesis : Proof) (block : Nat) :
    Kept genesis (uploaded admin genesis block) := by
  have hget : ∀ id b, (uploaded admin genesis block).proofBlocks[id]? = some b →
      id = genesis.authoritySetId ∧ b = block := by
    intro id b h
    simp only [uploaded, Chain.proofBlocks, init, Std.TreeMap.getElem?_insert] at h
    split at h
    · next heq =>
        exact ⟨(Std.LawfulEqCmp.eq_of_compare heq).symm, (Option.some.inj h).symm⟩
    · simp at h
  constructor
  · constructor
    · intro id
      simp only [uploaded, Chain.proofBlocks, Chain.latestId, init, Std.TreeMap.mem_insert]
      simp [UInt64.le_antisymm_iff]
    · intro id id' b b' hlt hb hb'
      rw [(hget id b hb).1, (hget id' b' hb').1] at hlt
      exact absurd hlt (UInt64.lt_irrefl _)
    · intro id b hb
      exact Nat.le_of_eq (hget id b hb).2
    · intro id b hb hlt
      rw [(hget id b hb).2] at hlt
      exact absurd hlt (Nat.lt_irrefl block)
  · exact UInt64.le_refl _
  · simp [uploaded, Chain.latestId, init]
  · rfl
  · intro b s h
    simp [uploaded] at h

/-- The ids stored are at most the latest one, and the ids below it are of earlier blocks. -/
theorem Kept.below (hk : Kept genesis c) {id : AuthoritySetId} {b : Nat}
    (hb : c.proofBlocks[id]? = some b) :
    id.toNat ≤ c.latestId.toNat ∧
      ∃ bl, lastKeyValue c.proofBlocks = some (c.latestId, bl) ∧ bl ≤ c.height ∧
        (id = c.latestId → b = bl) ∧ (id ≠ c.latestId → b < bl) := by
  have hin : id ∈ c.proofBlocks := Std.TreeMap.mem_iff_isSome_getElem?.mpr (by rw [hb]; rfl)
  have hle := ((hk.contiguous id).mp hin).2
  obtain ⟨bl, hlast⟩ := hk.last_key_value
  have hbl := (lastKeyValue_eq_some_iff.mp hlast).1
  refine ⟨UInt64.le_iff_toNat_le.mp hle, bl, hlast, hk.notLater _ _ hbl, ?_, ?_⟩
  · intro hid
    rw [hid, hbl] at hb
    exact (Option.some.inj hb).symm
  · intro hid
    exact hk.increasing id _ b bl (UInt64.lt_of_le_of_ne hle hid) hb hbl

/-- Ending the block archives the state; an id of this block is the latest one. -/
theorem Kept.endBlock (hk : Kept genesis c) : Kept genesis c.endBlock := by
  constructor
  · constructor
    · exact hk.contiguous
    · exact hk.increasing
    · intro id b hb
      exact Nat.le_succ_of_le (hk.notLater id b hb)
    · intro id b hb _
      by_cases hnow : b = c.height
      · obtain ⟨_, bl, _, hle, _, hother⟩ := hk.below hb
        have hid : id = c.latestId := by
          by_contra hne
          have := hother hne
          omega
        subst hnow hid
        exact ⟨c.program.state, by simp [Chain.endBlock], rfl, hk.latest⟩
      · have hlt : b < c.height := Nat.lt_of_le_of_ne (hk.notLater id b hb) hnow
        obtain ⟨s, hs, hsid, hacc⟩ := hk.atEnd id b hb hlt
        refine ⟨s, ?_, hsid, hacc⟩
        rw [Chain.endBlock, List.lookup_cons, beq_false_of_ne hnow]
        exact hs
  · exact hk.started
  · exact hk.latest
  · exact hk.circuitData
  · intro b s hmem
    rcases List.mem_cons.mp hmem with heq | hmem
    · cases heq
      exact ⟨Nat.lt_succ_self _, hk.circuitData, fun id b' hb' => ⟨hb', hk.notLater id b' hb'⟩⟩
    · obtain ⟨hlt, hrest⟩ := hk.older b s hmem
      exact ⟨Nat.lt_succ_of_lt hlt, hrest⟩

section Store

variable {msg : HandleMessage}

/-- When the block of the latest id is not this one, no id is of this block. -/
theorem Kept.earlier (hk : Kept genesis c)
    (hblock : ∀ k b, lastKeyValue c.proofBlocks = some (k, b) → b ≠ c.height)
    {id : AuthoritySetId} {b : Nat} (hb : c.proofBlocks[id]? = some b) : b < c.height := by
  obtain ⟨_, bl, hlast, hle, hsame, hother⟩ := hk.below hb
  have hne := hblock _ _ hlast
  by_cases hid : id = c.latestId
  · have := hsame hid
    omega
  · have := hother hid
    omega

theorem Recorded.store (hk : Kept genesis c)
    (hnext : msg.authoritySetId.toNat = c.latestId.toNat + 1)
    (hblock : ∀ k b, lastKeyValue c.proofBlocks = some (k, b) → b ≠ c.height) :
    Recorded genesis.authoritySetId (c.store msg) := by
  have hstarted := UInt64.le_iff_toNat_le.mp hk.started
  constructor
  · intro id
    rw [Std.TreeMap.mem_iff_isSome_getElem?, getElem?_store, latestId_store]
    by_cases h : id = msg.authoritySetId
    · subst h
      simp only [if_true, Option.isSome_some, true_iff, UInt64.le_iff_toNat_le]
      omega
    · rw [if_neg h, ← Std.TreeMap.mem_iff_isSome_getElem?, hk.contiguous]
      have hne : id.toNat ≠ msg.authoritySetId.toNat := fun e => h (UInt64.toNat_inj.mp e)
      simp only [UInt64.le_iff_toNat_le]
      omega
  · intro id id' b b' hlt hb hb'
    rw [getElem?_store] at hb hb'
    have hlt := UInt64.lt_iff_toNat_lt.mp hlt
    split at hb
    · next h =>
        split at hb'
        · next h' =>
            rw [h, h'] at hlt
            exact absurd hlt (Nat.lt_irrefl _)
        · have := (hk.below hb').1
          rw [h] at hlt
          omega
    · split at hb'
      · cases hb'
        exact hk.earlier hblock hb
      · exact hk.increasing id id' b b' (UInt64.lt_iff_toNat_lt.mpr hlt) hb hb'
  · intro id b hb
    rw [getElem?_store] at hb
    split at hb
    · cases hb
      exact Nat.le_refl _
    · exact hk.notLater id b hb
  · intro id b hb hlt
    rw [getElem?_store] at hb
    split at hb
    · cases hb
      exact absurd hlt (Nat.lt_irrefl c.height)
    · next hne =>
        obtain ⟨s, hs, hsid, hacc⟩ := hk.atEnd id b hb hlt
        refine ⟨s, hs, hsid, ?_⟩
        rw [Chain.store, List.lookup_cons, beq_false_of_ne hne]
        exact hacc

/-- Storing the next proof in a block that has none keeps the record. -/
theorem Kept.store (hk : Kept genesis c)
    (hnext : msg.authoritySetId.toNat = c.latestId.toNat + 1)
    (hblock : ∀ k b, lastKeyValue c.proofBlocks = some (k, b) → b ≠ c.height) :
    Kept genesis (c.store msg) := by
  have hstarted := UInt64.le_iff_toNat_le.mp hk.started
  constructor
  · exact Recorded.store hk hnext hblock
  · rw [latestId_store, UInt64.le_iff_toNat_le]
    omega
  · rw [latestId_store, Chain.store, List.lookup_cons, beq_self_eq_true]
    rfl
  · exact hk.circuitData
  · intro b s hmem
    obtain ⟨hlt, hcircuit, hold⟩ := hk.older b s hmem
    refine ⟨hlt, hcircuit, fun id b' hb' => ?_⟩
    obtain ⟨hnow, hle⟩ := hold id b' hb'
    refine ⟨?_, hle⟩
    rw [getElem?_store, if_neg]
    · exact hnow
    · intro heq
      have := (hk.below hnow).1
      rw [heq] at this
      omega

end Store

/-- **Step lemma**: every step but the proof on top of the largest id keeps the record. -/
theorem Kept.step (hk : Kept genesis c) (hok : wraps c a = false) (h : step c a = some c') :
    Kept genesis c' := by
  obtain rfl | ⟨msg, rfl, hid, hblock, rfl⟩ | ⟨rfl, rfl⟩ := step_cases h
  · exact hk
  · refine hk.store ?_ hblock
    rw [hid, UInt64.toNat_add]
    refine Nat.mod_eq_of_lt (Nat.lt_of_le_of_ne c.latestId.toNat_lt fun hmax => ?_)
    -- the sum wraps around exactly when the guard forbids the message
    have hzero : msg.authoritySetId = 0 := by
      rw [hid, ← UInt64.toNat_inj, UInt64.toNat_add, hmax]
      rfl
    have hlast : c.latestId.toNat + 1 = 2 ^ 64 := hmax
    simp [wraps, hlast, hzero] at hok
  · exact hk.endBlock

/-- The chains reached from the upload of the program by steps none of which wraps around. -/
abbrev Ordinary (admin : ActorId) (genesis : Proof) (block : Nat) : Chain → Prop :=
  Reachable step (fun c a => wraps c a = false) (· = uploaded admin genesis block)

/-- **Run lemma**: the record is kept along every such run. -/
theorem kept_of_ordinary {admin : ActorId} {block : Nat} (h : Ordinary admin genesis block c) :
    Kept genesis c := by
  refine h.invariant (I := Kept genesis) ?_ fun _ _ _ hk hok hs => hk.step hok hs
  intro s hs
  rw [show s = uploaded admin genesis block from hs]
  exact kept_uploaded admin genesis block

end GearBridges.ProofStorage
