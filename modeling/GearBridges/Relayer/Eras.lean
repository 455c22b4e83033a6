import GearBridges.Lib.Transition
import GearBridges.Relayer.GearProofStorage
import GearBridges.Relayer.ProverInterface
import Mathlib.Data.UInt

/-!
# Relayer.Eras

The eras of the merkle root relayer (`Eras` in `relay_merkle_roots.rs`): each era is sealed by
submitting the queue root of the first block of the next one to Ethereum, and stays in
`sealed_not_finalized` until its transaction is finalized.

Every call may fail and ends `process` on the spot, so a run is a sequence of rounds of the
two loops, each with what the nodes answer during it (`step`).  `rounds` remembers them all,
so that the reason why an era needed no transaction or left the list is read off the answers
(`Settled`).  `eras_accounted` is the bookkeeping over whole runs; the additions to
`last_sealed` are those of `u64`, and it holds as long as they do not wrap around.
-/

namespace GearBridges.MerkleRootRelayer

open Transition
open ProofStorage (ProofWithCircuitData)
open ProverInterface (FinalProof)

abbrev H256 := BitVec 256
abbrev TxHash := BitVec 256

inductive TxStatus where
  | finalized
  | pending
  | failed
deriving DecidableEq, Repr

structure SealedNotFinalizedEra where
  era : UInt64
  merkleRootBlock : UInt32
  txHash : TxHash
  proof : FinalProof
deriving DecidableEq

structure Eras where
  lastSealed : UInt64
  sealedNotFinalized : List SealedNotFinalizedEra
deriving DecidableEq

/-! ## one round of each loop -/

/-- What the Gear node, the proof storage, the prover and Ethereum answer during a round,
which makes no call twice; `none` is an error. -/
structure Api where
  findEraFirstBlock : UInt64 → Option H256
  blockHashToNumber : H256 → Option UInt32
  fetchQueueMerkleRoot : H256 → Option H256
  readFinalizedMerkleRoot : UInt32 → Option (Option H256)
  getProofForAuthoritySetId : UInt64 → Option ProofWithCircuitData
  proveFinal : ProofWithCircuitData → H256 → Option FinalProof
  provideMerkleRoot : FinalProof → Option TxHash
  getTxStatus : TxHash → Option TxStatus

inductive SealOutcome where
  | err
  | panic
  | skipped
  | submitted (era : SealedNotFinalizedEra)
deriving DecidableEq

/-- `seal_era`. -/
def sealEra (authoritySetId : UInt64) (api : Api) : SealOutcome :=
  match api.findEraFirstBlock (authoritySetId + 1) with
  | none => .err
  | some block =>
  match api.blockHashToNumber block with
  | none => .err
  | some blockNumber =>
  match api.fetchQueueMerkleRoot block with
  | none => .err
  | some queueMerkleRoot =>
  if queueMerkleRoot = 0 then .skipped
  else
  match api.readFinalizedMerkleRoot blockNumber with
  | none => .err
  | some (some _) => .skipped
  | some none =>
  match api.getProofForAuthoritySetId authoritySetId with
  | none => .err
  | some innerProof =>
  match api.proveFinal innerProof block with
  | none => .err
  | some proof =>
  if proof.blockNumber ≠ blockNumber then .panic
  else
  match api.provideMerkleRoot proof with
  | none => .err
  | some txHash =>
      .submitted { era := authoritySetId, merkleRootBlock := blockNumber, txHash, proof }

inductive FinalizeOutcome where
  | err
  | finalized
  | notYet (era : SealedNotFinalizedEra)
deriving DecidableEq

/-- `SealedNotFinalizedEra::try_finalize`; a failed transaction is submitted again and its
hash replaced. -/
def tryFinalizeEra (e : SealedNotFinalizedEra) (api : Api) : FinalizeOutcome :=
  match api.getTxStatus e.txHash with
  | none => .err
  | some .finalized => .finalized
  | some .pending => .notYet e
  | some .failed =>
      match api.readFinalizedMerkleRoot e.merkleRootBlock with
      | none => .err
      | some (some _) => .finalized
      | some none =>
          match api.provideMerkleRoot e.proof with
          | none => .err
          | some txHash => .notYet { e with txHash }

/-! ## process -/

/-- Where `process` stands: not running, at the top of the loop of `try_seal` with a further
era to seal, or in the loop of `try_finalize` with `i` eras to go. -/
inductive Pc where
  | idle
  | sealing (currentEra : UInt64)
  | finalizing (i : Nat)
  | panicked
deriving DecidableEq

/-- A round of one of the loops: the era it was about, and what was answered. -/
inductive Round where
  | seal (era : UInt64) (api : Api)
  | finalize (e : SealedNotFinalizedEra) (api : Api)

structure World where
  eras : Eras
  pc : Pc
  rounds : List Round

def start (lastSealed : UInt64) : World :=
  { eras := { lastSealed, sealedNotFinalized := [] }
    pc := .idle
    rounds := [] }

inductive Action where
  | observe (latestFinalizedBlock : Option H256) (signedByAuthoritySetId : Option UInt64)
  | sealRound (api : Api)
  | finalizeRound (api : Api)

/-- The condition of the loop of `try_seal`; after it, `try_finalize` starts from the end of
the list. -/
def nextPc (eras : Eras) (currentEra : UInt64) : Pc :=
  if eras.lastSealed + 2 ≤ currentEra then .sealing currentEra
  else .finalizing eras.sealedNotFinalized.length

/-- The first two calls of `try_seal`. -/
def observePc (eras : Eras) : Option H256 → Option UInt64 → Pc
  | some _, some currentEra => nextPc eras currentEra
  | _, _ => .idle

/-- `process` up to its next call. -/
def step (w : World) : Action → Option World
  | .observe latest currentEra =>
      match w.pc with
      | .idle => some { w with pc := observePc w.eras latest currentEra }
      | .finalizing 0 => some { w with pc := observePc w.eras latest currentEra }
      | _ => none
  | .sealRound api =>
      match w.pc with
      | .sealing currentEra =>
          let era := w.eras.lastSealed + 1
          let w := { w with rounds := .seal era api :: w.rounds }
          match sealEra era api with
          | .err => some { w with pc := .idle }
          | .panic => some { w with pc := .panicked }
          | .skipped =>
              let eras := { w.eras with lastSealed := w.eras.lastSealed + 1 }
              some { w with eras, pc := nextPc eras currentEra }
          | .submitted e =>
              let eras :=
                { lastSealed := w.eras.lastSealed + 1
                  sealedNotFinalized := w.eras.sealedNotFinalized ++ [e] }
              some { w with eras, pc := nextPc eras currentEra }
      | _ => none
  | .finalizeRound api =>
      match w.pc with
      | .finalizing (i + 1) =>
          match w.eras.sealedNotFinalized[i]? with
          | none => none
          | some e =>
              let w := { w with rounds := .finalize e api :: w.rounds }
              match tryFinalizeEra e api with
              | .err => some { w with pc := .idle }
              | .finalized =>
                  some { w with
                    eras :=
                      { w.eras with sealedNotFinalized := w.eras.sealedNotFinalized.eraseIdx i }
                    pc := .finalizing i }
              | .notYet e =>
                  some { w with
                    eras := { w.eras with sealedNotFinalized := w.eras.sealedNotFinalized.set i e }
                    pc := .finalizing i }
      | _ => none

/-! ## what is known of the eras -/

/-- The queue at the sealing block of the era was empty. -/
def Api.QueueEmpty (api : Api) (era : UInt64) : Prop :=
  ∃ block, api.findEraFirstBlock (era + 1) = some block ∧ api.fetchQueueMerkleRoot block = some 0

/-- The sealing block of the era had this number. -/
def Api.SealedAt (api : Api) (era : UInt64) (blockNumber : UInt32) : Prop :=
  ∃ block, api.findEraFirstBlock (era + 1) = some block ∧
    api.blockHashToNumber block = some blockNumber

/-- Ethereum had a root for the block. -/
def Api.RootExists (api : Api) (blockNumber : UInt32) : Prop :=
  ∃ root, api.readFinalizedMerkleRoot blockNumber = some (some root)

def Round.era : Round → UInt64
  | .seal era _ => era
  | .finalize e _ => e.era

def Round.api : Round → Api
  | .seal _ api => api
  | .finalize _ api => api

/-- The entry and its proof are for the sealing block of its era, and its transaction is one
by which a round of the era submitted the proof. -/
structure Submitted (rounds : List Round) (e : SealedNotFinalizedEra) : Prop where
  sealed : ∃ api, .seal e.era api ∈ rounds ∧ api.SealedAt e.era e.merkleRootBlock
  sent : ∃ r ∈ rounds, r.era = e.era ∧ r.api.provideMerkleRoot e.proof = some e.txHash
  proved : e.proof.blockNumber = e.merkleRootBlock

/-- Why an era needs no transaction, or needs it no longer, as the answers to the calls of
its rounds have it. -/
inductive Settled (rounds : List Round) (era : UInt64) : Prop where
  | emptyQueue (api : Api) (mem : .seal era api ∈ rounds) (empty : api.QueueEmpty era)
  | alreadySubmitted (api : Api) (blockNumber : UInt32) (mem : .seal era api ∈ rounds)
      (sealed : api.SealedAt era blockNumber) (found : api.RootExists blockNumber)
  | txFinalized (e : SealedNotFinalizedEra) (api : Api) (mem : .finalize e api ∈ rounds)
      (same : e.era = era) (submitted : Submitted rounds e)
      (finalized : api.getTxStatus e.txHash = some .finalized)
  | rootFound (e : SealedNotFinalizedEra) (api : Api) (mem : .finalize e api ∈ rounds)
      (same : e.era = era) (submitted : Submitted rounds e)
      (found : api.RootExists e.merkleRootBlock)

/-- The eras in the list are distinct and sealed, each with its transaction, and every era
sealed since the start is in the list or settled. -/
structure Accounted (initial : UInt64) (w : World) : Prop where
  grows : initial ≤ w.eras.lastSealed
  distinct : (w.eras.sealedNotFinalized.map (·.era)).Nodup
  bounded : ∀ e ∈ w.eras.sealedNotFinalized, e.era ≤ w.eras.lastSealed
  submitted : ∀ e ∈ w.eras.sealedNotFinalized, Submitted w.rounds e
  accounted : ∀ era, initial < era → era ≤ w.eras.lastSealed →
    era ∈ w.eras.sealedNotFinalized.map (·.era) ∨ Settled w.rounds era

/-- The observations under which no addition to `last_sealed` wraps around. -/
def ok (w : World) : Action → Bool
  | .observe _ currentEra =>
      decide (w.eras.lastSealed.toNat + 2 < 2 ^ 64) &&
        currentEra.all fun currentEra => decide (currentEra.toNat + 1 < 2 ^ 64)
  | _ => true

/-- The invariant: beside the bookkeeping, a round of sealing starts below the current era,
and the index of `try_finalize` is within the list. -/
structure Inv (initial : UInt64) (w : World) : Prop extends Accounted initial w where
  sealing : ∀ c, w.pc = .sealing c →
    w.eras.lastSealed.toNat + 2 ≤ c.toNat ∧ c.toNat + 1 < 2 ^ 64
  index : ∀ i, w.pc = .finalizing i → i ≤ w.eras.sealedNotFinalized.length

variable {initial : UInt64} {w w' : World} {a : Action} {eras : Eras} {currentEra : UInt64}

theorem toNat_add_of_lt {x y : UInt64} (h : x.toNat + y.toNat < 2 ^ 64) :
    (x + y).toNat = x.toNat + y.toNat := by
  rw [UInt64.toNat_add, Nat.mod_eq_of_lt h]

/-- The loop condition, without overflow, and the index from which `try_finalize` starts. -/
theorem nextPc_spec (hlast : eras.lastSealed.toNat + 2 < 2 ^ 64) (hcur : currentEra.toNat + 1 < 2 ^ 64) :
    (∀ c, nextPc eras currentEra = .sealing c →
        eras.lastSealed.toNat + 2 ≤ c.toNat ∧ c.toNat + 1 < 2 ^ 64) ∧
      ∀ i, nextPc eras currentEra = .finalizing i → i ≤ eras.sealedNotFinalized.length := by
  unfold nextPc
  split
  · next hle =>
      refine ⟨fun c hc => ?_, fun i hi => by contradiction⟩
      cases hc
      rw [UInt64.le_iff_toNat_le, toNat_add_of_lt hlast] at hle
      exact ⟨hle, hcur⟩
  · refine ⟨fun c hc => by contradiction, fun i hi => ?_⟩
    cases hi
    exact Nat.le_refl _

/-- An era is skipped only when its queue is empty or its root is on Ethereum. -/
theorem sealEra_skipped {era : UInt64} {api : Api} {rounds : List Round}
    (h : sealEra era api = .skipped) : Settled (.seal era api :: rounds) era := by
  unfold sealEra at h
  split at h
  · contradiction
  · next block hblock =>
  split at h
  · contradiction
  · next number hnumber =>
  split at h
  · contradiction
  · next root hroot =>
  split at h
  · next hzero => exact .emptyQueue api List.mem_cons_self ⟨block, hblock, hzero ▸ hroot⟩
  · split at h
    · contradiction
    · next found hfound =>
        exact .alreadySubmitted api number List.mem_cons_self ⟨block, hblock, hnumber⟩
          ⟨found, hfound⟩
    · repeat' split at h
      all_goals contradiction

theorem sealEra_submitted {era : UInt64} {api : Api} {e : SealedNotFinalizedEra}
    {rounds : List Round} (h : sealEra era api = .submitted e) :
    e.era = era ∧ Submitted (.seal era api :: rounds) e := by
  unfold sealEra at h
  split at h
  · contradiction
  · next block hblock =>
  split at h
  · contradiction
  · next number hnumber =>
  split at h
  · contradiction
  split at h
  · contradiction
  split at h
  · contradiction
  · contradiction
  split at h
  · contradiction
  split at h
  · contradiction
  split at h
  · contradiction
  · next hproof =>
  split at h
  · contradiction
  · next txHash htx =>
    cases h
    exact ⟨rfl, ⟨api, List.mem_cons_self, block, hblock, hnumber⟩,
      ⟨_, List.mem_cons_self, rfl, htx⟩, Decidable.not_not.mp hproof⟩

/-- An entry leaves the list only when its transaction is finalized or its root found. -/
theorem tryFinalizeEra_finalized {e : SealedNotFinalizedEra} {api : Api} {rounds : List Round}
    (h : tryFinalizeEra e api = .finalized) (hmem : .finalize e api ∈ rounds)
    (hsubmitted : Submitted rounds e) : Settled rounds e.era := by
  unfold tryFinalizeEra at h
  split at h
  · contradiction
  · next hstatus => exact .txFinalized e api hmem rfl hsubmitted hstatus
  · contradiction
  · split at h
    · contradiction
    · next root hroot => exact .rootFound e api hmem rfl hsubmitted ⟨root, hroot⟩
    · split at h <;> contradiction

/-- The entry that stays is for the same era and block, under its own transaction or the one
just sent. -/
theorem tryFinalizeEra_notYet {e e' : SealedNotFinalizedEra} {api : Api} {rounds : List Round}
    (h : tryFinalizeEra e api = .notYet e') (hmem : .finalize e api ∈ rounds)
    (hsubmitted : Submitted rounds e) : e'.era = e.era ∧ Submitted rounds e' := by
  unfold tryFinalizeEra at h
  split at h
  · contradiction
  · contradiction
  · cases h
    exact ⟨rfl, hsubmitted⟩
  · split at h
    · contradiction
    · contradiction
    · split at h
      · contradiction
      · next txHash htx =>
          cases h
          exact ⟨rfl, hsubmitted.sealed, ⟨_, hmem, rfl, htx⟩, hsubmitted.proved⟩

theorem Submitted.cons {rounds : List Round} {e : SealedNotFinalizedEra} (h : Submitted rounds e)
    (r : Round) : Submitted (r :: rounds) e := by
  obtain ⟨⟨api, hmem, hat⟩, ⟨r', hr', hsent⟩, hproved⟩ := h
  exact ⟨⟨api, List.mem_cons_of_mem _ hmem, hat⟩, ⟨r', List.mem_cons_of_mem _ hr', hsent⟩, hproved⟩

theorem Settled.cons {rounds : List Round} {era : UInt64} (h : Settled rounds era) (r : Round) :
    Settled (r :: rounds) era := by
  cases h with
  | emptyQueue api mem empty => exact .emptyQueue api (List.mem_cons_of_mem _ mem) empty
  | alreadySubmitted api number mem sealed found =>
      exact .alreadySubmitted api number (List.mem_cons_of_mem _ mem) sealed found
  | txFinalized e api mem same submitted finalized =>
      exact .txFinalized e api (List.mem_cons_of_mem _ mem) same (submitted.cons r) finalized
  | rootFound e api mem same submitted found =>
      exact .rootFound e api (List.mem_cons_of_mem _ mem) same (submitted.cons r) found

/-- A round that changes nothing in the list. -/
theorem Accounted.cons (ha : Accounted initial w) (r : Round) :
    Accounted initial { w with rounds := r :: w.rounds } :=
  ⟨ha.grows, ha.distinct, ha.bounded, fun e he => (ha.submitted e he).cons r,
    fun era hera hmax => (ha.accounted era hera hmax).imp id fun h => h.cons r⟩

/-- The next era is above the one sealed last, and the condition of the loop can be checked
again. -/
theorem Inv.next (hi : Inv initial w) (hpc : w.pc = .sealing currentEra) :
    (w.eras.lastSealed + 1).toNat = w.eras.lastSealed.toNat + 1 ∧
      (w.eras.lastSealed + 1).toNat + 2 < 2 ^ 64 ∧ currentEra.toNat + 1 < 2 ^ 64 := by
  obtain ⟨hle, hcur⟩ := hi.sealing currentEra hpc
  have hnext : (w.eras.lastSealed + 1).toNat = w.eras.lastSealed.toNat + 1 :=
    toNat_add_of_lt (show w.eras.lastSealed.toNat + 1 < 2 ^ 64 by omega)
  exact ⟨hnext, by omega, hcur⟩

/-- An era that is at most the next one is sealed already, or is the next one. -/
theorem le_next {x y z : UInt64} (hz : z.toNat = y.toNat + 1) (h : x ≤ z) : x ≤ y ∨ x = z := by
  rw [UInt64.le_iff_toNat_le] at h ⊢
  rw [← UInt64.toNat_inj]
  omega

/-- The next era is settled at once, or enters the list. -/
theorem Accounted.sealNext (ha : Accounted initial w) {last : UInt64} {pc : Pc}
    {list : List SealedNotFinalizedEra}
    (hlast : last.toNat = w.eras.lastSealed.toNat + 1)
    (hlist : (list = w.eras.sealedNotFinalized ∧ Settled w.rounds last) ∨
      ∃ e, (e.era = last ∧ Submitted w.rounds e) ∧ list = w.eras.sealedNotFinalized ++ [e]) :
    Accounted initial ⟨⟨last, list⟩, pc, w.rounds⟩ := by
  have hlt : w.eras.lastSealed < last := UInt64.lt_iff_toNat_lt.mpr (by omega)
  have hle := UInt64.le_of_lt hlt
  have hgrows := UInt64.le_trans ha.grows hle
  have hbounded : ∀ e ∈ w.eras.sealedNotFinalized, e.era ≤ last :=
    fun e he => UInt64.le_trans (ha.bounded e he) hle
  rcases hlist with ⟨rfl, hsettled⟩ | ⟨e, ⟨he, hsubmitted⟩, rfl⟩
  · refine ⟨hgrows, ha.distinct, hbounded, ha.submitted, fun era hera hmax => ?_⟩
    rcases le_next hlast hmax with hold | heq
    · exact ha.accounted era hera hold
    · exact .inr (heq ▸ hsettled)
  · refine ⟨hgrows, ?_, ?_, ?_, fun era hera hmax => ?_⟩
    · -- the new era is above all that are in the list
      rw [List.map_append, List.nodup_append]
      refine ⟨ha.distinct, by simp, fun x hx y hy heq => ?_⟩
      obtain ⟨e', he', rfl⟩ := List.mem_map.mp hx
      simp only [List.map_cons, List.map_nil, List.mem_singleton] at hy
      have hle' := ha.bounded e' he'
      rw [heq, hy, he] at hle'
      exact absurd hlt (UInt64.not_lt.mpr hle')
    · intro e' hmem
      rcases List.mem_append.mp hmem with hold | hnew
      · exact hbounded e' hold
      · rw [List.mem_singleton.mp hnew, he]
        exact UInt64.le_refl _
    · intro e' hmem
      rcases List.mem_append.mp hmem with hold | hnew
      · exact ha.submitted e' hold
      · rw [List.mem_singleton.mp hnew]
        exact hsubmitted
    · rw [List.map_append, List.mem_append]
      rcases le_next hlast hmax with hold | heq
      · exact (ha.accounted era hera hold).imp .inl fun h => h
      · exact .inl (.inr (by simp [heq, he]))

theorem Accounted.remove (ha : Accounted initial w) {i : Nat} {e : SealedNotFinalizedEra}
    (hget : w.eras.sealedNotFinalized[i]? = some e) (hsettled : Settled w.rounds e.era) (pc : Pc) :
    Accounted initial
      ⟨{ w.eras with sealedNotFinalized := w.eras.sealedNotFinalized.eraseIdx i }, pc,
        w.rounds⟩ := by
  obtain ⟨hi, hei⟩ := List.getElem?_eq_some_iff.mp hget
  refine ⟨ha.grows, ?_, ?_, ?_, fun era hera hmax => ?_⟩
  · rw [← List.eraseIdx_map]
    exact ha.distinct.sublist (List.eraseIdx_sublist _ _)
  · intro e' hmem
    exact ha.bounded e' (List.mem_of_mem_eraseIdx hmem)
  · intro e' hmem
    exact ha.submitted e' (List.mem_of_mem_eraseIdx hmem)
  · rcases ha.accounted era hera hmax with hmem | hold
    · obtain ⟨e', he', rfl⟩ := List.mem_map.mp hmem
      obtain ⟨j, hj⟩ := List.mem_iff_getElem?.mp he'
      by_cases hij : j = i
      · rw [hij, hget] at hj
        rw [← Option.some.inj hj]
        exact .inr hsettled
      · exact .inl (List.mem_map_of_mem (List.mem_eraseIdx_iff_getElem?.mpr ⟨j, hij, hj⟩))
    · exact .inr hold

theorem Accounted.replace (ha : Accounted initial w) {i : Nat} {e e' : SealedNotFinalizedEra}
    (hget : w.eras.sealedNotFinalized[i]? = some e) (hera : e'.era = e.era)
    (hsubmitted : Submitted w.rounds e') (pc : Pc) :
    Accounted initial
      ⟨{ w.eras with sealedNotFinalized := w.eras.sealedNotFinalized.set i e' }, pc,
        w.rounds⟩ := by
  obtain ⟨hi, hei⟩ := List.getElem?_eq_some_iff.mp hget
  have hmap : (w.eras.sealedNotFinalized.set i e').map (·.era) =
      w.eras.sealedNotFinalized.map (·.era) := by
    have hi' : i < (w.eras.sealedNotFinalized.map (·.era)).length := by simpa using hi
    have hgetmap : (w.eras.sealedNotFinalized.map (·.era))[i] = e.era := by
      rw [List.getElem_map, hei]
    rw [List.map_set, hera, ← hgetmap]
    exact List.set_getElem_self hi'
  refine ⟨ha.grows, ?_, ?_, ?_, fun era hlt hmax => ?_⟩
  · rw [hmap]
    exact ha.distinct
  · intro x hx
    have hx := List.mem_map_of_mem (f := (·.era)) hx
    rw [hmap] at hx
    obtain ⟨y, hy, hxy⟩ := List.mem_map.mp hx
    rw [← hxy]
    exact ha.bounded y hy
  · intro x hx
    rcases List.mem_or_eq_of_mem_set hx with hold | rfl
    · exact ha.submitted x hold
    · exact hsubmitted
  · rw [hmap]
    exact ha.accounted era hlt hmax

/-! ## whole runs -/

/-- Only the position in `process` changes. -/
theorem Inv.withPc (hi : Inv initial w) {pc : Pc} (hsealing : ∀ c, pc = .sealing c →
      w.eras.lastSealed.toNat + 2 ≤ c.toNat ∧ c.toNat + 1 < 2 ^ 64)
    (hfinalizing : ∀ i, pc = .finalizing i → i ≤ w.eras.sealedNotFinalized.length) :
    Inv initial { w with pc } :=
  ⟨⟨hi.grows, hi.distinct, hi.bounded, hi.submitted, hi.accounted⟩, hsealing, hfinalizing⟩

/-- A round is remembered. -/
theorem Inv.cons (hi : Inv initial w) (r : Round) :
    Inv initial { w with rounds := r :: w.rounds } :=
  ⟨hi.toAccounted.cons r, hi.sealing, hi.index⟩

/-- `process` ends. -/
theorem Inv.idle (hi : Inv initial w) : Inv initial { w with pc := .idle } :=
  hi.withPc (by simp) (by simp)

theorem Inv.observe (hi : Inv initial w) {latest : Option H256} {currentEra : Option UInt64}
    (hok : ok w (.observe latest currentEra) = true)
    (h : step w (.observe latest currentEra) = some w') :
    Inv initial w' ∧ w.eras.lastSealed ≤ w'.eras.lastSealed := by
  simp only [ok, Bool.and_eq_true, decide_eq_true_eq] at hok
  have hobserve : Inv initial { w with pc := observePc w.eras latest currentEra } := by
    unfold observePc
    split
    · next era =>
        have hcur : era.toNat + 1 < 2 ^ 64 := by simpa using hok.2
        exact hi.withPc (nextPc_spec hok.1 hcur).1 (nextPc_spec hok.1 hcur).2
    · exact hi.idle
  simp only [MerkleRootRelayer.step] at h
  split at h
  · cases h
    exact ⟨hobserve, UInt64.le_refl _⟩
  · cases h
    exact ⟨hobserve, UInt64.le_refl _⟩
  · contradiction

theorem Inv.sealRound (hi : Inv initial w) {api : Api}
    (h : step w (.sealRound api) = some w') :
    Inv initial w' ∧ w.eras.lastSealed ≤ w'.eras.lastSealed := by
  simp only [MerkleRootRelayer.step] at h
  split at h
  · next currentEra hpc =>
      obtain ⟨hnext, hlast, hcur⟩ := hi.next hpc
      have hle : w.eras.lastSealed ≤ w.eras.lastSealed + 1 :=
        UInt64.le_iff_toNat_le.mpr (by omega)
      have hi' := hi.cons (.seal (w.eras.lastSealed + 1) api)
      split at h
      · cases h
        exact ⟨hi'.idle, UInt64.le_refl _⟩
      · cases h
        exact ⟨hi'.withPc (by simp) (by simp), UInt64.le_refl _⟩
      · next hseal =>
          cases h
          refine ⟨⟨hi'.toAccounted.sealNext hnext (.inl ⟨rfl, sealEra_skipped hseal⟩), ?_, ?_⟩,
            hle⟩
          · exact (nextPc_spec hlast hcur).1
          · exact (nextPc_spec hlast hcur).2
      · next e hseal =>
          cases h
          refine ⟨⟨hi'.toAccounted.sealNext hnext (.inr ⟨e, sealEra_submitted hseal, rfl⟩),
            ?_, ?_⟩, hle⟩
          · exact (nextPc_spec hlast hcur).1
          · exact (nextPc_spec hlast hcur).2
  · contradiction

theorem Inv.finalizeRound (hi : Inv initial w) {api : Api}
    (h : step w (.finalizeRound api) = some w') :
    Inv initial w' ∧ w.eras.lastSealed ≤ w'.eras.lastSealed := by
  simp only [MerkleRootRelayer.step] at h
  split at h
  · next i hpc =>
      have hindex := hi.index _ hpc
      split at h
      · contradiction
      · next e hget =>
          have hi' := hi.cons (.finalize e api)
          have hsubmitted := hi'.submitted e (List.mem_of_getElem? hget)
          split at h
          · cases h
            exact ⟨hi'.idle, UInt64.le_refl _⟩
          · next hfin =>
              cases h
              have hsettled := tryFinalizeEra_finalized hfin List.mem_cons_self hsubmitted
              refine ⟨⟨hi'.toAccounted.remove hget hsettled _, by simp, fun j hj => ?_⟩,
                UInt64.le_refl _⟩
              cases hj
              rw [List.length_eraseIdx]
              split <;> omega
          · next e' hnot =>
              cases h
              obtain ⟨hera, hsent⟩ := tryFinalizeEra_notYet hnot List.mem_cons_self hsubmitted
              refine ⟨⟨hi'.toAccounted.replace hget hera hsent _, by simp, fun j hj => ?_⟩,
                UInt64.le_refl _⟩
              cases hj
              rw [List.length_set]
              omega
  · contradiction

/-- **Step lemma**: without overflow, every round keeps the bookkeeping, and the era sealed
last does not go back. -/
theorem Inv.step (hi : Inv initial w) (hok : ok w a = true) (h : step w a = some w') :
    Inv initial w' ∧ w.eras.lastSealed ≤ w'.eras.lastSealed := by
  cases a with
  | observe latest currentEra => exact hi.observe hok h
  | sealRound api => exact hi.sealRound h
  | finalizeRound api => exact hi.finalizeRound h

theorem inv_start (initial : UInt64) : Inv initial (start initial) := by
  refine ⟨⟨UInt64.le_refl _, by simp [start], by simp [start], by simp [start],
    fun era hlt hle => ?_⟩, by simp [start], by simp [start]⟩
  exact absurd hlt (UInt64.not_lt.mpr hle)

/-- The runs of `process` from `last_sealed = initial` in which no addition wraps around. -/
abbrev Ordinary (initial : UInt64) : World → Prop :=
  Reachable step (fun w a => ok w a = true) (· = start initial)

/-- **Run lemma.** -/
theorem inv_of_ordinary (h : Ordinary initial w) : Inv initial w := by
  refine h.invariant (I := Inv initial) ?_ fun _ _ _ hi hok hs => (hi.step hok hs).1
  intro s hs
  rw [show s = start initial from hs]
  exact inv_start initial

/-- **No era is skipped or sealed twice**: the era sealed last never goes back, the eras in
the list are distinct and sealed, and every era sealed since the start had an empty queue at
its sealing block, had its root on Ethereum already, is in the list, or left it when its
transaction was finalized or its root was found, all by the answers of its rounds. -/
theorem eras_accounted (h : Ordinary initial w) :
    Accounted initial w ∧
      ∀ a w', ok w a = true → step w a = some w' → w.eras.lastSealed ≤ w'.eras.lastSealed :=
  ⟨(inv_of_ordinary h).toAccounted, fun _ _ hok hs => ((inv_of_ordinary h).step hok hs).2⟩

/-- A node with an empty queue. -/
def emptyQueueApi : Api :=
  { findEraFirstBlock := fun _ => some 7
    blockHashToNumber := fun _ => some 40
    fetchQueueMerkleRoot := fun _ => some 0
    readFinalizedMerkleRoot := fun _ => none
    getProofForAuthoritySetId := fun _ => none
    proveFinal := fun _ _ => none
    provideMerkleRoot := fun _ => none
    getTxStatus := fun _ => none }

/-- A node under which the root of block 40 is submitted in transaction `txHash`. -/
def submitApi (txHash : TxHash) (status : TxStatus) : Api :=
  { findEraFirstBlock := fun _ => some 7
    blockHashToNumber := fun _ => some 40
    fetchQueueMerkleRoot := fun _ => some 1
    readFinalizedMerkleRoot := fun _ => some none
    getProofForAuthoritySetId := fun _ => some ⟨[], []⟩
    proveFinal := fun _ _ => some ⟨[], 40, Relayer.zeroRoot⟩
    provideMerkleRoot := fun _ => some txHash
    getTxStatus := fun _ => some status }

/-- From era 3: era 4 is submitted, the call for era 5 fails once, then its queue is empty;
the transaction of era 4 fails, is repeated and finalized. -/
theorem eras_accounted_five : ∃ w, Ordinary 3 w ∧ w.eras = ⟨5, []⟩ ∧ Accounted 3 w := by
  obtain ⟨w, hw, hp⟩ := @exists_reachable_of_exec _ _ step (fun w a => ok w a = true) _
    (· = start 3) (start 3) rfl
    [.observe (some 1) (some 6), .sealRound (submitApi 9 .pending),
      .sealRound { submitApi 9 .pending with proveFinal := fun _ _ => none },
      .observe (some 2) (some 6), .sealRound emptyQueueApi,
      .finalizeRound (submitApi 8 .failed),
      .observe (some 3) (some 6), .finalizeRound (submitApi 8 .finalized)]
    (fun w => decide (w.eras = ⟨5, []⟩)) (by decide +kernel)
  exact ⟨w, hw, of_decide_eq_true hp, (eras_accounted hw).1⟩

/-- From the largest era: the condition of the loop wraps around, era 0 is sealed and the era
sealed last goes back to it. -/
theorem eras_go_back_at_max : ∃ w, Reachable step free (· = start 0xffffffffffffffff) w ∧
    w.eras.lastSealed < 0xffffffffffffffff ∧ ¬ Accounted 0xffffffffffffffff w := by
  obtain ⟨w, hw, hp⟩ := @exists_reachable_of_exec _ _ step free _
    (· = start 0xffffffffffffffff) (start 0xffffffffffffffff) rfl
    [.observe (some 1) (some 1), .sealRound emptyQueueApi]
    (fun w => decide (w.eras.lastSealed = 0)) (by decide +kernel)
  have hzero := of_decide_eq_true hp
  refine ⟨w, hw, by rw [hzero]; decide, fun ha => ?_⟩
  have hgrows := ha.grows
  rw [hzero] at hgrows
  exact absurd hgrows (by decide)

end GearBridges.MerkleRootRelayer
