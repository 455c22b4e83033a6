import GearBridges.CheckpointLightClient.System
import Mathlib.Algebra.GroupWithZero.Nat
import Mathlib.Order.Monotone.Basic

/-!
# CheckpointLightClient.HonestChain

An honest beacon chain as the light client sees it: blocks linked by `parentRoot`,
the sync committee of every period, proofs of both committees in the state of every
block, and committees that only sign blocks.  With a collision-free hash what a proof
against a block shows is unique.

`ledgerChain` is a chain over free digests: the assumptions can be met.
-/

namespace GearBridges.CheckpointLightClient

open EthereumCommon

/-- An honest chain.  `finalizedRoot n` is the finalized root recorded in the state of
block `n`; at the start of the chain it may be the root of no header. -/
structure HonestChain (P : Primitives) (network : Network) where
  block : Nat → Header P
  committee : Nat → SyncCommitteeKeys P
  finalizedRoot : Nat → P.Hash
  hash_collisionFree : CollisionFree P.hash
  headerRoot_injective : Function.Injective P.headerRoot
  committeeRoot_injective : Function.Injective P.committeeRoot
  serializeCompressed_injective : ∀ a b key, P.serializeCompressed a = some key →
    P.serializeCompressed b = some key → a = b
  slot_strictMono : StrictMono fun n => (block n).slot
  parentRoot_succ : ∀ n, (block (n + 1)).parentRoot = P.headerRoot (block n)
  current_proven : ∀ n, ∃ aggregatePubkey c branch,
    constructSyncCommittee aggregatePubkey (committee (calculatePeriod (block n).slot)) = some c ∧
      isCurrentCommitteeProofValid network (block n) c branch = true
  next_proven : ∀ n, NextProven network (block n) (committee (calculatePeriod (block n).slot + 1))
  finalizedRoot_proven : ∀ n, ∃ branch,
    isValidMerkleBranch P.hash (finalizedRoot n) branch
      (depthIndexFinality network (block n).slot).1 (depthIndexFinality network (block n).slot).2
      (block n).stateRoot = true
  finalizedRoot_block : ∀ n h, P.headerRoot h = finalizedRoot n → ∃ k < n, h = block k
  signed_block : ∀ period u, SignedBy network (committee period) u → ∃ n, u.attestedHeader = block n

variable {P : Primitives} {network : Network}

theorem mapM_injective {α β : Type} {f : α → Option β}
    (hf : ∀ a b x, f a = some x → f b = some x → a = b) :
    ∀ {l l' : List α} {ys : List β}, l.mapM f = some ys → l'.mapM f = some ys → l = l' := by
  intro l
  induction l with
  | nil =>
      intro l' ys h h'
      simp only [List.mapM_nil, Option.pure_def, Option.some.injEq] at h
      subst h
      cases l' with
      | nil => rfl
      | cons b l' => simp [List.mapM_cons, Option.bind_eq_some_iff] at h'
  | cons a l ih =>
      intro l' ys h h'
      simp only [List.mapM_cons, Option.pure_def, Option.bind_eq_bind, Option.bind_eq_some_iff,
        Option.some.injEq] at h
      obtain ⟨y, hy, ys, hys, rfl⟩ := h
      cases l' with
      | nil => simp at h'
      | cons b l' =>
          simp only [List.mapM_cons, Option.pure_def, Option.bind_eq_bind, Option.bind_eq_some_iff,
            Option.some.injEq, List.cons.injEq] at h'
          obtain ⟨y', hy', ys', hys', rfl, rfl⟩ := h'
          rw [hf a b _ hy hy', ih hys hys']

namespace HonestChain

/-- A merkleized committee determines its keys. -/
theorem keys_of_constructSyncCommittee (chain : HonestChain P network) {a a' : P.PubKey}
    {keys keys' : SyncCommitteeKeys P}
    {c c' : SyncCommittee P.PubKey} (h : constructSyncCommittee a keys = some c)
    (h' : constructSyncCommittee a' keys' = some c')
    (hroot : P.committeeRoot c = P.committeeRoot c') : keys = keys' := by
  have hc : c = c' := chain.committeeRoot_injective hroot
  subst hc
  simp only [constructSyncCommittee, Option.map_eq_some_iff] at h h'
  obtain ⟨pubkeys, hpubkeys, rfl⟩ := h
  obtain ⟨pubkeys', hpubkeys', heq⟩ := h'
  injection heq with heq _
  subst heq
  exact Subtype.ext (mapM_injective chain.serializeCompressed_injective hpubkeys hpubkeys')

variable (chain : HonestChain P network)

/-- The committee of the period of a header. -/
def committeeAt (slot : Slot) : SyncCommitteeKeys P := chain.committee (calculatePeriod slot)

theorem block_injective {a b : Nat} (h : (chain.block a).slot = (chain.block b).slot) : a = b :=
  chain.slot_strictMono.injective h

theorem slot_lt_iff {a b : Nat} : (chain.block a).slot < (chain.block b).slot ↔ a < b :=
  chain.slot_strictMono.lt_iff_lt

/-- The keys proven to be the current committee of a block are that of its period. -/
theorem current_unique {n : Nat} {a : P.PubKey} {keys : SyncCommitteeKeys P}
    {c : SyncCommittee P.PubKey} {branch : List P.Hash} (hc : constructSyncCommittee a keys = some c)
    (h : isCurrentCommitteeProofValid network (chain.block n) c branch = true) :
    keys = chain.committeeAt (chain.block n).slot := by
  obtain ⟨a', c', branch', hc', h'⟩ := chain.current_proven n
  exact chain.keys_of_constructSyncCommittee hc hc'
    (isValidMerkleBranch_binding chain.hash_collisionFree h h')

/-- The keys proven to be the next committee of a block are that of the period after
its own. -/
theorem next_unique {n : Nat} {keys : SyncCommitteeKeys P}
    (h : NextProven network (chain.block n) keys) :
    keys = chain.committee (calculatePeriod (chain.block n).slot + 1) := by
  obtain ⟨a, c, branch, hc, h⟩ := h
  obtain ⟨a', c', branch', hc', h'⟩ := chain.next_proven n
  exact chain.keys_of_constructSyncCommittee hc hc'
    (isValidMerkleBranch_binding chain.hash_collisionFree h h')

/-- A header proven finalized by a block is an earlier block. -/
theorem finalized_block {n : Nat} {h : Header P} (hf : FinalityProven network (chain.block n) h) :
    ∃ k < n, h = chain.block k := by
  obtain ⟨branch, hf⟩ := hf
  obtain ⟨branch', hf'⟩ := chain.finalizedRoot_proven n
  exact chain.finalizedRoot_block n h
    (isValidMerkleBranch_binding chain.hash_collisionFree hf hf')

/-- A header whose root is the parent of a block is the block before it. -/
theorem parent_block {n : Nat} {h : Header P}
    (hh : P.headerRoot h = (chain.block (n + 1)).parentRoot) : h = chain.block n := by
  rw [chain.parentRoot_succ] at hh
  exact chain.headerRoot_injective hh

theorem checkpoint_injective {a b : Nat}
    (h : P.checkpoint (chain.block a) = P.checkpoint (chain.block b)) : a = b :=
  chain.block_injective (congrArg Prod.fst h)

/-! ## verified updates -/

/-- The committee of some period. -/
def Genuine (keys : SyncCommitteeKeys P) : Prop := ∃ period, keys = chain.committee period

/-- **What `verify` accepts from genuine committees**: a newer finalized block, and with
it, exactly when the update rotates, the committee of the period after that block's. -/
theorem verify_block {slot : Slot} {current next : SyncCommitteeKeys P} {u : Update P}
    {bits : List Bool} {f : Option (Header P)} {c : Option (SyncCommitteeKeys P)}
    (hcurrent : chain.Genuine current) (hnext : chain.Genuine next)
    (h : verify network slot current next u bits = .ok (f, c)) :
    f = some u.finalizedHeader ∧ (∃ k, u.finalizedHeader = chain.block k) ∧
    c.isSome = u.rotates (calculatePeriod slot) ∧
    ∀ keys, c = some keys →
      keys = chain.committee (calculatePeriod u.finalizedHeader.slot + 1) := by
  obtain ⟨_, ⟨signers, hsigners, hsigned⟩, _, hcommittee, _⟩ := verify_ok h
  obtain ⟨hf, _, hproven⟩ := verify_finalized h
  have hgenuine : chain.Genuine signers := by
    cases signingCommittee_some hsigners with
    | inl hs => rw [hs.1]; exact hnext
    | inr hs => rw [hs.1]; exact hcurrent
  obtain ⟨period, rfl⟩ := hgenuine
  obtain ⟨n, hn⟩ := chain.signed_block period u hsigned
  rw [hn] at hproven
  obtain ⟨k, _, hk⟩ := chain.finalized_block hproven
  refine ⟨hf, ⟨k, hk⟩, committeeUpdate_isSome hcommittee, ?_⟩
  intro keys hkeys
  subst hkeys
  obtain ⟨hnextProven, hperiod, _⟩ := committeeUpdate_some hcommittee
  rw [hn] at hnextProven hperiod
  rw [← hperiod]
  exact chain.next_unique hnextProven

/-- The state a successful `init` makes of a genuine finalized block. -/
theorem init_block {arg : Init P} {s : State P} (hnetwork : arg.network = network) {n : Nat}
    (hblock : arg.update.finalizedHeader = chain.block n) (h : init arg = some s) :
    s.network = network ∧ s.finalizedHeader = chain.block n ∧
    s.syncCommitteeCurrent = chain.committeeAt s.finalizedHeader.slot ∧
    s.syncCommitteeNext = chain.committee (calculatePeriod s.finalizedHeader.slot + 1) ∧
    s.checkpoints = .singleton (P.checkpoint s.finalizedHeader) ∧ s.replayBack = none := by
  subst hnetwork
  unfold init at h
  split at h
  · rename_i hcommittee
    split at h
    · rename_i hproof
      split at h
      · contradiction
      · split at h
        · rename_i f c hverify
          cases h
          rw [hblock] at hproof
          have hcurrent := chain.current_unique hcommittee hproof
          have hgenuine : chain.Genuine arg.syncCommitteeCurrentPubKeys := ⟨_, hcurrent⟩
          obtain ⟨hf, _, _, hc⟩ := chain.verify_block hgenuine hgenuine hverify
          cases hf
          rw [hblock] at hc ⊢
          exact ⟨rfl, rfl, hcurrent, hc _ rfl, rfl, rfl⟩
        · contradiction
    · contradiction
  · contradiction

/-- Waiting executions read committees of the chain. -/
def GenuineSnapshots (w : World P) : Prop :=
  ∀ p ∈ w.pending, p.snapshot.network = network ∧
    chain.Genuine p.snapshot.syncCommitteeCurrent ∧ chain.Genuine p.snapshot.syncCommitteeNext

variable {chain}

theorem GenuineSnapshots.of_subset {w w' : World P} (h : chain.GenuineSnapshots w)
    (hsub : w'.pending ⊆ w.pending) : chain.GenuineSnapshots w' :=
  fun p hp => h p (hsub hp)

theorem GenuineSnapshots.suspend {w : World P} (h : chain.GenuineSnapshots w) {p : Pending P}
    (hsnapshot : p.snapshot = w.state.snapshot) (hnetwork : w.state.network = network)
    (hcurrent : chain.Genuine w.state.syncCommitteeCurrent)
    (hnext : chain.Genuine w.state.syncCommitteeNext) :
    chain.GenuineSnapshots { w with pending := w.pending ++ [p] } := by
  intro q hq
  rcases List.mem_append.mp hq with hq | hq
  · exact h q hq
  · rw [List.mem_singleton] at hq
    subst hq
    rw [hsnapshot]
    exact ⟨hnetwork, hcurrent, hnext⟩

/-- `verify_block` for a waiting execution. -/
theorem GenuineSnapshots.verify {w : World P} (h : chain.GenuineSnapshots w) {i : Nat}
    {p : Pending P} (hp : w.pending[i]? = some p) {f : Option (Header P)}
    {c : Option (SyncCommitteeKeys P)} (hverify : p.snapshot.verify p.update p.bits = .ok (f, c)) :
    f = some p.update.finalizedHeader ∧ (∃ k, p.update.finalizedHeader = chain.block k) ∧
    c.isSome = p.update.rotates (calculatePeriod p.snapshot.slot) ∧
    ∀ keys, c = some keys →
      keys = chain.committee (calculatePeriod p.update.finalizedHeader.slot + 1) := by
  obtain ⟨hn, hcurrent, hnext⟩ := h p (List.mem_of_getElem? hp)
  unfold Snapshot.verify at hverify
  rw [hn] at hverify
  exact chain.verify_block hcurrent hnext hverify

end HonestChain

/-! ## a chain over free digests -/

/-- Digests as free terms: no two inputs collide. -/
inductive Digest where
  | zero
  | node (left right : Digest)
  | header (slot proposerIndex : Nat) (parentRoot stateRoot bodyRoot : Digest)
  | committee (pubkeys : List Nat) (aggregatePubkey : Nat)
deriving DecidableEq

namespace Digest

/-- A beacon state with its two committees and its finalized root, laid out as since
Electra. -/
def state (current next finalized : Digest) : Digest :=
  node (node zero (node (node zero
    (node (node (node zero finalized) zero) (node current next))) zero)) zero

/-- Slots of the blocks: two at the end of period 9, then all of period 10 and later. -/
def ledgerSlot (n : Nat) : Nat := if n < 2 then 81888 + n else 81918 + n

def ledgerKeys (period : Nat) : List Nat := List.replicate syncCommitteeSize period

def ledgerCommitteeRoot (period : Nat) : Digest := committee (ledgerKeys period) period

def ledgerState (n : Nat) (finalized : Digest) : Digest :=
  state (ledgerCommitteeRoot (calculatePeriod (ledgerSlot n)))
    (ledgerCommitteeRoot (calculatePeriod (ledgerSlot n) + 1)) finalized

/-- Branches of the two committees, from the root of the other one, and of the
finalized root. -/
def committeeBranch (sibling finalized : Digest) : List Digest :=
  [sibling, node (node zero finalized) zero, zero, zero, zero, zero]

def finalityBranch (current next : Digest) : List Digest :=
  [zero, zero, node current next, zero, zero, zero, zero]

/-- Root of the block before a block, which is also the one it finalizes. -/
def ledgerParent : Nat → Digest
  | 0 => zero
  | n + 1 => header (ledgerSlot n) 0 (ledgerParent n) (ledgerState n (ledgerParent n)) zero

def ledgerBlock (n : Nat) : BlockHeader Digest where
  slot := ledgerSlot n
  proposerIndex := 0
  parentRoot := ledgerParent n
  stateRoot := ledgerState n (ledgerParent n)
  bodyRoot := zero

end Digest

open Digest in
/-- Primitives over free digests.  A signature is the number of the block signed. -/
abbrev ledgerPrimitives : Primitives where
  Hash := Digest
  PubKey := Nat
  G1 := Nat
  G2 := Nat
  hash := node
  headerRoot h := header h.slot h.proposerIndex h.parentRoot h.stateRoot h.bodyRoot
  committeeRoot c := committee c.pubkeys c.aggregatePubkey
  serializeCompressed := some
  signingRoot root _ _ := root
  aggregateG1 := List.sum
  isZero key := key == 0
  pairing _ message n := message = ledgerParent (n + 1)

def ledgerCommittee (period : Nat) : SyncCommitteeKeys ledgerPrimitives :=
  ⟨Digest.ledgerKeys period, List.length_replicate⟩

theorem constructSyncCommittee_ledger (a : Nat) (keys : SyncCommitteeKeys ledgerPrimitives) :
    constructSyncCommittee (P := ledgerPrimitives) a keys = some ⟨keys.val, a⟩ := by
  have h : ∀ l : List Nat, l.mapM some = some l := by
    intro l
    induction l with
    | nil => rfl
    | cons k l ih => simp [List.mapM_cons, ih]
  unfold constructSyncCommittee
  have hkeys : keys.val.mapM ledgerPrimitives.serializeCompressed = some keys.val := h keys.val
  rw [hkeys, Option.map_some]

theorem electra_ledgerSlot (n : Nat) :
    Network.hoodi.epochElectra ≤ calculateEpoch (Digest.ledgerSlot n) := by
  have h : 81888 ≤ Digest.ledgerSlot n := by
    unfold Digest.ledgerSlot
    split <;> omega
  simp only [Network.epochElectra, calculateEpoch, slotsPerEpoch]
  omega

theorem headerRoot_ledger_injective : Function.Injective ledgerPrimitives.headerRoot := by
  intro ⟨_, _, _, _, _⟩ ⟨_, _, _, _, _⟩ h
  injection h with h1 h2 h3 h4 h5
  rw [BlockHeader.mk.injEq]
  exact ⟨h1, h2, h3, h4, h5⟩

theorem eq_ledgerBlock {h : Header ledgerPrimitives} {n : Nat}
    (hroot : ledgerPrimitives.headerRoot h = Digest.ledgerParent (n + 1)) :
    h = Digest.ledgerBlock n :=
  headerRoot_ledger_injective hroot

/-- Free digests carry an honest chain. -/
def ledgerChain : HonestChain ledgerPrimitives .hoodi where
  block := Digest.ledgerBlock
  committee := ledgerCommittee
  finalizedRoot := Digest.ledgerParent
  hash_collisionFree := by
    intro a b c d h
    injection h with h h'
    exact ⟨h, h'⟩
  headerRoot_injective := headerRoot_ledger_injective
  committeeRoot_injective := by
    intro ⟨_, _⟩ ⟨_, _⟩ h
    injection h with h1 h2
    rw [SyncCommittee.mk.injEq]
    exact ⟨h1, h2⟩
  serializeCompressed_injective := by
    intro a b key ha hb
    exact (Option.some.inj ha).trans (Option.some.inj hb).symm
  slot_strictMono := by
    intro a b h
    change Digest.ledgerSlot a < Digest.ledgerSlot b
    unfold Digest.ledgerSlot
    split <;> split <;> omega
  parentRoot_succ := fun _ => rfl
  current_proven := by
    intro n
    let period := calculatePeriod (Digest.ledgerSlot n)
    refine ⟨period, _, Digest.committeeBranch (Digest.ledgerCommitteeRoot (period + 1))
      (Digest.ledgerParent n), constructSyncCommittee_ledger period _, ?_⟩
    have hd : depthIndexCurrent .hoodi (Digest.ledgerBlock n).slot = (6, 22) :=
      if_pos (electra_ledgerSlot n)
    unfold isCurrentCommitteeProofValid
    rw [hd]
    exact decide_eq_true rfl
  next_proven := by
    intro n
    let period := calculatePeriod (Digest.ledgerSlot n)
    refine ⟨period + 1, _, Digest.committeeBranch (Digest.ledgerCommitteeRoot period)
      (Digest.ledgerParent n), constructSyncCommittee_ledger (period + 1) _, ?_⟩
    have hd : depthIndexNext .hoodi (Digest.ledgerBlock n).slot = (6, 23) :=
      if_pos (electra_ledgerSlot n)
    unfold isNextCommitteeProofValid
    rw [hd]
    exact decide_eq_true rfl
  finalizedRoot_proven := by
    intro n
    let period := calculatePeriod (Digest.ledgerSlot n)
    refine ⟨Digest.finalityBranch (Digest.ledgerCommitteeRoot period)
      (Digest.ledgerCommitteeRoot (period + 1)), ?_⟩
    have hd : depthIndexFinality .hoodi (Digest.ledgerBlock n).slot = (7, 41) :=
      if_pos (electra_ledgerSlot n)
    rw [hd]
    exact decide_eq_true rfl
  finalizedRoot_block := by
    intro n h hroot
    cases n with
    | zero => injection hroot
    | succ n => exact ⟨n, Nat.lt_succ_self n, eq_ledgerBlock hroot⟩
  signed_block := by
    intro period u ⟨positions, _, _, h⟩
    simp only [verifySyncCommitteeSignature] at h
    split at h
    · contradiction
    · exact ⟨u.syncCommitteeSignature, eq_ledgerBlock (of_decide_eq_true h)⟩

open Digest

/-- The update by which block `n`, signed by the whole committee, finalizes the block
before it, with or without the next committee. -/
def ledgerUpdate (n : Nat) (carries : Bool) : Update ledgerPrimitives :=
  let period := calculatePeriod (ledgerSlot n)
  { signatureSlot := ledgerSlot n + 1
    attestedHeader := ledgerBlock n
    finalizedHeader := ledgerBlock (n - 1)
    syncCommitteeSignature := n
    syncCommitteeNextAggregatePubkey := if carries then some (period + 1) else none
    syncCommitteeNextPubKeys := if carries then some (ledgerCommittee (period + 1)) else none
    syncCommitteeNextBranch :=
      if carries then some (committeeBranch (ledgerCommitteeRoot period) (ledgerParent n)) else none
    finalityBranch :=
      finalityBranch (ledgerCommitteeRoot period) (ledgerCommitteeRoot (period + 1)) }

def ledgerBits : Option (List Bool) := some (List.replicate syncCommitteeSize true)

/-- Creation of the program at block 0. -/
def ledgerInit : Init ledgerPrimitives where
  network := .hoodi
  syncCommitteeCurrentPubKeys := ledgerCommittee 9
  syncCommitteeCurrentAggregatePubkey := 9
  syncCommitteeCurrentBranch := committeeBranch (ledgerCommitteeRoot 10) (ledgerParent 0)
  update := ledgerUpdate 1 true
  syncCommitteeBits := ledgerBits

theorem init_ledgerInit_isSome : (init ledgerInit).isSome = true := by decide +kernel

/-- State of the program right after its creation. -/
def ledgerStart : State ledgerPrimitives := (init ledgerInit).get init_ledgerInit_isSome

theorem init_ledgerInit : init ledgerInit = some ledgerStart := (Option.some_get _).symm

/-- What the checks of `init` leave of its argument, field by field. -/
theorem ledgerStart_eq : ledgerStart =
    { network := .hoodi
      finalizedHeader := ledgerBlock 0
      syncCommitteeCurrent := ledgerCommittee 9
      syncCommitteeNext := ledgerCommittee 10
      checkpoints := .singleton (ledgerPrimitives.checkpoint (ledgerBlock 0))
      replayBack := none } := by
  have hfields : (init ledgerInit).any (fun s =>
      decide (s.network = .hoodi ∧ s.finalizedHeader = ledgerBlock 0 ∧
        s.syncCommitteeCurrent = ledgerCommittee 9 ∧ s.syncCommitteeNext = ledgerCommittee 10 ∧
        s.checkpoints.entries = [ledgerPrimitives.checkpoint (ledgerBlock 0)]) && s.replayBack.isNone) =
      true := by
    decide +kernel
  rw [init_ledgerInit, Option.any_some, Bool.and_eq_true, decide_eq_true_eq,
    Option.isNone_iff_eq_none] at hfields
  obtain ⟨⟨hnetwork, hheader, hcurrent, hnext, hentries⟩, hreplay⟩ := hfields
  generalize ledgerStart = s at *
  obtain ⟨network, finalizedHeader, current, next, ⟨entries, hne⟩, replayBack⟩ := s
  subst hnetwork hheader hcurrent hnext hreplay
  simp only at hentries
  subst hentries
  rfl

theorem last_ledgerStart :
    ledgerStart.checkpoints.last = ledgerPrimitives.checkpoint (ledgerBlock 0) := by
  rw [ledgerStart_eq]
  rfl

end GearBridges.CheckpointLightClient
