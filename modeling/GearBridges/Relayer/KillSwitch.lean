import GearBridges.Relayer.Eras

/-!
# Relayer.KillSwitch

The kill switch relayer (`KillSwitchRelayer`), which compares the merkle roots that reach
Ethereum with the roots of the Gear blocks and answers a wrong one with a correct proof.  It
scans the blocks from `start_from_eth_block` to the last finalized one and moves on when the
whole range was processed.

An iteration of `main_loop` is cut at its calls, each of which may fail and end it, and the
archiver may store finality proofs in between.  A mismatching event whose finality proof is
not in the storage is passed over (`continue`), and the comparison reads the lowest 32 bits of
the block number only.  Where neither happens, the relayer never moves past a wrong root
(`passed_events_match`).
-/

namespace GearBridges.KillSwitch

open Transition
open ProverInterface (FinalProof)
open MerkleRootRelayer (H256 TxHash TxStatus)

structure MerkleRootEntry where
  blockNumber : UInt64
  merkleRoot : H256
deriving DecidableEq

/-- What is stored under a key: an encoded finality proof, or bytes that do not decode. -/
inductive StorageValue where
  | blockFinality (hash : H256)
  | corrupt
deriving DecidableEq

inductive State where
  | normal
  | waitingForKillSwitchTxFin (txHash : TxHash) (proof : FinalProof)
deriving DecidableEq

/-- Where `main_loop` stands: not running, or at the next event of the range that ends with
`lastFinalizedBlock`. -/
inductive Pc where
  | idle
  | scanning (lastFinalizedBlock : UInt64) (events : List MerkleRootEntry)
  | stopped
deriving DecidableEq

/-- The two chains as far as they are read: the root of each Gear block, and the `MerkleRoot`
events of each Ethereum block. -/
structure Chains where
  gearRoot : UInt32 → H256
  events : Nat → List MerkleRootEntry

/-- The relayer with its storage; `initialStart` is the first block it scans and `compared`
the events it has compared, with the result. -/
structure World where
  startFromEthBlock : Option UInt64
  state : State
  storage : UInt32 → Option StorageValue
  pc : Pc
  initialStart : Option UInt64
  compared : List (MerkleRootEntry × Bool)

def start (fromEthBlock : Option UInt64) (storage : UInt32 → Option StorageValue) : World :=
  { startFromEthBlock := fromEthBlock
    state := .normal
    storage
    pc := .idle
    initialStart := fromEthBlock
    compared := [] }

/-- How a group of calls ends. -/
inductive CallResult where
  | ok
  | err
  | panic
deriving DecidableEq

/-- The answers to the calls made for one event; `none` and `false` are errors. -/
structure EventAnswers where
  compareMerkleRoots : Bool
  storageGet : Bool
  generateProof : Option FinalProof
  provideMerkleRoot : Option TxHash

inductive Action where
  | mainLoop (sync : CallResult) (finalizedBlockNumber : Option UInt64) (fetched : Bool)
  | event (answers : EventAnswers)
  | archive (blockNumber : UInt32) (value : StorageValue)
  | checkTx (status : Option TxStatus) (provideMerkleRoot : Option TxHash)

variable (chains : Chains)

/-- `fetch_merkle_roots_in_range`. -/
def merkleRootsInRange (first last : Nat) : List MerkleRootEntry :=
  (List.range' first (last + 1 - first)).flatMap chains.events

/-- `compare_merkle_roots`, once its calls are answered: the block is looked up under
`block_number as u32`. -/
def compareMerkleRoots (event : MerkleRootEntry) : Bool :=
  chains.gearRoot event.blockNumber.toUInt32 == event.merkleRoot

/-- `last_finalized_block.saturating_add(1)`. -/
def saturatingSucc (x : UInt64) : UInt64 := if x.toNat + 1 < 2 ^ 64 then x + 1 else x

/-- Go on with the events that remain; after the last one the range is done. -/
def proceed (w : World) (lastFinalizedBlock : UInt64) (events : List MerkleRootEntry) : World :=
  match events with
  | [] => { w with
      startFromEthBlock := some (saturatingSucc lastFinalizedBlock), pc := .idle }
  | _ :: _ => { w with pc := .scanning lastFinalizedBlock events }

/-- `main_loop` up to the first event. -/
def beginScan (w : World) (lastFinalizedBlock : UInt64) (fetched : Bool) : World :=
  let startFromEthBlock := w.startFromEthBlock.getD lastFinalizedBlock
  let w := { w with
    startFromEthBlock := some startFromEthBlock
    initialStart := some (w.initialStart.getD startFromEthBlock) }
  if lastFinalizedBlock < startFromEthBlock then w
  else if fetched then
    proceed w lastFinalizedBlock
      (merkleRootsInRange chains startFromEthBlock.toNat lastFinalizedBlock.toNat)
  else w

/-- One round of the loop over the events. -/
def checkEvent (w : World) (lastFinalizedBlock : UInt64) (event : MerkleRootEntry)
    (events : List MerkleRootEntry) (answers : EventAnswers) : World :=
  if !answers.compareMerkleRoots then { w with pc := .idle }
  else
    let isMatches := compareMerkleRoots chains event
    let w := { w with compared := (event, isMatches) :: w.compared }
    if isMatches then proceed w lastFinalizedBlock events
    else if !answers.storageGet then { w with pc := .idle }
    else
      match w.storage event.blockNumber.toUInt32 with
      | none => proceed w lastFinalizedBlock events
      | some .corrupt => { w with pc := .idle }
      | some (.blockFinality _) =>
          match answers.generateProof with
          | none => { w with pc := .idle }
          | some proof =>
              match answers.provideMerkleRoot with
              | none => { w with pc := .idle }
              | some txHash =>
                  { w with state := .waitingForKillSwitchTxFin txHash proof, pc := .idle }

/-- `check_kill_switch_tx_finalized`; the process exits once the transaction is finalized. -/
def checkKillSwitchTxFinalized (w : World) (proof : FinalProof) (status : Option TxStatus)
    (provideMerkleRoot : Option TxHash) : World :=
  match status with
  | some .finalized => { w with pc := .stopped }
  | some .failed =>
      match provideMerkleRoot with
      | some txHash => { w with state := .waitingForKillSwitchTxFin txHash proof }
      | none => w
  | _ => w

def step (w : World) : Action → Option World
  | .mainLoop sync finalizedBlockNumber fetched =>
      match w.state, w.pc with
      | .normal, .idle =>
          match sync, finalizedBlockNumber with
          | .panic, _ => some { w with pc := .stopped }
          | .ok, some lastFinalizedBlock => some (beginScan chains w lastFinalizedBlock fetched)
          | _, _ => some w
      | _, _ => none
  | .event answers =>
      match w.pc with
      | .scanning lastFinalizedBlock (event :: events) =>
          some (checkEvent chains w lastFinalizedBlock event events answers)
      | _ => none
  | .archive blockNumber value =>
      some { w with storage := Function.update w.storage blockNumber (some value) }
  | .checkTx status provideMerkleRoot =>
      match w.state, w.pc with
      | .waitingForKillSwitchTxFin _ proof, .idle =>
          some (checkKillSwitchTxFinalized w proof status provideMerkleRoot)
      | _, _ => none

/-! ## no wrong root is passed over -/

/-- The event carries the root of the Gear block it names. -/
def Correct (event : MerkleRootEntry) : Prop :=
  event.blockNumber.toNat < 2 ^ 32 ∧ chains.gearRoot event.blockNumber.toUInt32 = event.merkleRoot

/-- Every event of the blocks from the initial start up to the next block to scan was compared
with the Gear root and is correct. -/
def PassedMatch (w : World) : Prop :=
  ∀ first next, w.initialStart = some first → w.startFromEthBlock = some next →
    ∀ b, first.toNat ≤ b → b < next.toNat → ∀ event ∈ chains.events b,
      (event, true) ∈ w.compared ∧ Correct chains event

/-- The rounds that pass over nothing: the event's block number fits 32 bits, and a
mismatching event has an entry in the storage. -/
def ok (w : World) : Action → Bool
  | .event _ =>
      match w.pc with
      | .scanning _ (event :: _) =>
          decide (event.blockNumber.toNat < 2 ^ 32) &&
            (chains.gearRoot event.blockNumber.toUInt32 == event.merkleRoot ||
              (w.storage event.blockNumber.toUInt32).isSome)
      | _ => true
  | _ => true

/-- The invariant: during a scan the events of the range are those that were compared and
found correct, followed by those that remain. -/
structure Inv (w : World) : Prop where
  passed : PassedMatch chains w
  started : w.startFromEthBlock = none → w.initialStart = none
  scanning : ∀ last events, w.pc = .scanning last events → ∃ next done,
    w.startFromEthBlock = some next ∧
      merkleRootsInRange chains next.toNat last.toNat = done ++ events ∧
      ∀ event ∈ done, (event, true) ∈ w.compared ∧ Correct chains event

variable {chains} {w w' : World} {a : Action}

theorem saturatingSucc_le (x : UInt64) : (saturatingSucc x).toNat ≤ x.toNat + 1 := by
  unfold saturatingSucc
  split
  · next hlt =>
      rw [UInt64.toNat_add, show (1 : UInt64).toNat = 1 from rfl, Nat.mod_eq_of_lt hlt]
  · exact Nat.le_succ _

theorem mem_merkleRootsInRange {first last b : Nat} {event : MerkleRootEntry} (hfirst : first ≤ b)
    (hlast : b ≤ last) (h : event ∈ chains.events b) :
    event ∈ merkleRootsInRange chains first last := by
  rw [merkleRootsInRange, List.mem_flatMap]
  exact ⟨b, List.mem_range'_1.mpr (by omega), h⟩

/-- Leaving an iteration keeps the start, and with it the blocks of the range. -/
theorem Inv.leave (hi : Inv chains w) {pc : Pc} (hpc : ∀ last events, pc ≠ .scanning last events) :
    Inv chains { w with pc } :=
  ⟨hi.passed, hi.started, fun last events h => absurd h (hpc last events)⟩

/-- Going on with the events that remain, or, after the last one, moving on to the next block. -/
theorem inv_proceed {next last : UInt64} {done events : List MerkleRootEntry}
    (hpassed : PassedMatch chains w) (hnext : w.startFromEthBlock = some next)
    (hrange : merkleRootsInRange chains next.toNat last.toNat = done ++ events)
    (hdone : ∀ event ∈ done, (event, true) ∈ w.compared ∧ Correct chains event) :
    Inv chains (proceed w last events) := by
  cases events with
  | cons event events =>
      refine ⟨hpassed, fun h => ?_, fun last' events' h => ?_⟩
      · rw [show (proceed w last (event :: events)).startFromEthBlock = some next from hnext] at h
        contradiction
      · cases h
        exact ⟨next, done, hnext, hrange, hdone⟩
  | nil =>
      refine ⟨fun first next' hfirst hnext' b hb hlt event hevent => ?_, fun h => ?_, fun _ _ h => ?_⟩
      · cases hnext'
        have hlast : b ≤ last.toNat := Nat.le_of_lt_succ (Nat.lt_of_lt_of_le hlt (saturatingSucc_le last))
        by_cases hold : b < next.toNat
        · exact hpassed first next hfirst hnext b hb hold event hevent
        · have hmem := mem_merkleRootsInRange (Nat.not_lt.mp hold) hlast hevent
          rw [hrange, List.append_nil] at hmem
          exact hdone event hmem
      · contradiction
      · contradiction

theorem inv_beginScan (hi : Inv chains w) (hidle : w.pc = .idle) (last : UInt64) (fetched : Bool) :
    Inv chains (beginScan chains w last fetched) := by
  -- setting the start for the first time passes over nothing
  have hset : PassedMatch chains { w with
      startFromEthBlock := some (w.startFromEthBlock.getD last)
      initialStart := some (w.initialStart.getD (w.startFromEthBlock.getD last)) } := by
    intro first next hfirst hnext b hb hlt event hevent
    cases hfirst
    cases hnext
    cases hs : w.startFromEthBlock with
    | none =>
        rw [hi.started hs, hs] at hb
        rw [hs] at hlt
        exact absurd hlt (Nat.not_lt.mpr hb)
    | some next =>
        rw [hs] at hlt
        cases hf : w.initialStart with
        | none =>
            rw [hf, hs] at hb
            exact absurd hlt (Nat.not_lt.mpr hb)
        | some first =>
            rw [hf] at hb
            exact hi.passed first next hf hs b hb hlt event hevent
  have hstay : Inv chains { w with
      startFromEthBlock := some (w.startFromEthBlock.getD last)
      initialStart := some (w.initialStart.getD (w.startFromEthBlock.getD last)) } := by
    refine ⟨hset, fun h => by contradiction, fun _ _ h => ?_⟩
    rw [hidle] at h
    contradiction
  simp only [beginScan]
  split
  · exact hstay
  · split
    · exact inv_proceed hset rfl (List.nil_append _).symm (by simp)
    · exact hstay

theorem inv_checkEvent (hi : Inv chains w) {last : UInt64} {event : MerkleRootEntry}
    {events : List MerkleRootEntry} (hpc : w.pc = .scanning last (event :: events))
    (answers : EventAnswers) (hok : ok chains w (.event answers) = true) :
    Inv chains (checkEvent chains w last event events answers) := by
  obtain ⟨next, done, hnext, hrange, hdone⟩ := hi.scanning _ _ hpc
  simp only [ok, hpc, Bool.and_eq_true, decide_eq_true_eq, Bool.or_eq_true] at hok
  obtain ⟨hbound, hstored⟩ := hok
  have hcompared : ∀ isMatches, PassedMatch chains { w with
      compared := (event, isMatches) :: w.compared } := by
    intro _ first next' hfirst hnext' b hb hlt e he
    obtain ⟨hmem, hcorrect⟩ := hi.passed first next' hfirst hnext' b hb hlt e he
    exact ⟨List.mem_cons_of_mem _ hmem, hcorrect⟩
  have hleave : ∀ (isMatches : Bool) (state : State), Inv chains { w with
      compared := (event, isMatches) :: w.compared, state, pc := .idle } := by
    intro isMatches state
    exact ⟨hcompared isMatches, hi.started, fun _ _ h => by contradiction⟩
  simp only [checkEvent]
  split
  · exact hi.leave (by simp)
  · split
    · next hmatch =>
        have hdone' : ∀ e ∈ done ++ [event],
            (e, true) ∈ (event, compareMerkleRoots chains event) :: w.compared ∧ Correct chains e := by
          intro e he
          rcases List.mem_append.mp he with hold | hnew
          · obtain ⟨hmem, hcorrect⟩ := hdone e hold
            exact ⟨List.mem_cons_of_mem _ hmem, hcorrect⟩
          · rw [List.mem_singleton.mp hnew]
            exact ⟨by rw [hmatch]; exact List.mem_cons_self, hbound, beq_iff_eq.mp hmatch⟩
        exact inv_proceed (hcompared _) hnext (by simpa using hrange) hdone'
    · next hmismatch =>
        split
        · exact hleave _ _
        · split
          · -- the entry that the guard asks for is there
            next hnone =>
              rw [hnone] at hstored
              exact absurd (hstored.resolve_left hmismatch) (by simp)
          · exact hleave _ _
          · split
            · exact hleave _ _
            · split
              · exact hleave _ _
              · exact hleave _ _

/-- **Step lemma.** -/
theorem Inv.step (hi : Inv chains w) (hok : ok chains w a = true) (h : step chains w a = some w') :
    Inv chains w' := by
  cases a with
  | mainLoop sync finalizedBlockNumber fetched =>
      simp only [KillSwitch.step] at h
      split at h
      · next hpc =>
          split at h
          · cases h
            exact hi.leave (by simp)
          · cases h
            exact inv_beginScan hi hpc _ _
          · cases h
            exact hi
      · contradiction
  | event answers =>
      simp only [KillSwitch.step] at h
      split at h
      · next hpc =>
          cases h
          exact inv_checkEvent hi hpc answers hok
      · contradiction
  | archive blockNumber value =>
      cases h
      exact ⟨hi.passed, hi.started, hi.scanning⟩
  | checkTx status provideMerkleRoot =>
      simp only [KillSwitch.step] at h
      split at h
      · next hpc =>
          cases h
          unfold checkKillSwitchTxFinalized
          split
          · exact hi.leave (by simp)
          · split
            · exact ⟨hi.passed, hi.started, hi.scanning⟩
            · exact hi
          · exact hi
      · contradiction

theorem inv_start (fromEthBlock : Option UInt64) (storage : UInt32 → Option StorageValue) :
    Inv chains (start fromEthBlock storage) := by
  refine ⟨fun first next hfirst hnext b hb hlt => ?_, fun h => h, fun _ _ h => by contradiction⟩
  rw [show (start fromEthBlock storage).initialStart = fromEthBlock from rfl] at hfirst
  rw [show (start fromEthBlock storage).startFromEthBlock = fromEthBlock from rfl, hfirst] at hnext
  cases hnext
  exact absurd hlt (Nat.not_lt.mpr hb)

/-- The runs of the relayer that pass over nothing. -/
abbrev Watchful (chains : Chains) (fromEthBlock : Option UInt64)
    (storage : UInt32 → Option StorageValue) : World → Prop :=
  Reachable (step chains) (fun w a => ok chains w a = true) (· = start fromEthBlock storage)

/-- **The kill switch never passes over a wrong root**, in the runs in which block numbers fit
32 bits and a mismatching event is found in the finality storage. -/
theorem passed_events_match {fromEthBlock : Option UInt64} {storage : UInt32 → Option StorageValue}
    (h : Watchful chains fromEthBlock storage w) : PassedMatch chains w := by
  refine (h.invariant (I := Inv chains) ?_ fun _ _ _ hi hok hs => hi.step hok hs).passed
  intro s hs
  rw [show s = start fromEthBlock storage from hs]
  exact inv_start fromEthBlock storage

/-- The root of Gear block `n` is `n`; Ethereum block 5 holds the right root of block 7 and
Ethereum block 6 a wrong one of block 8. -/
def sampleChains : Chains :=
  { gearRoot := fun n => n.toNat
    events := fun b => if b = 5 then [⟨7, 7⟩] else if b = 6 then [⟨8, 99⟩] else [] }

def answered : EventAnswers :=
  { compareMerkleRoots := true
    storageGet := true
    generateProof := some ⟨[], 8, Relayer.zeroRoot⟩
    provideMerkleRoot := some 1 }

/-- With a finality proof for block 8 in the storage, the wrong root is answered and block 6
is not passed. -/
theorem passed_events_match_six : ∃ w,
    Watchful sampleChains (some 5) (fun n => if n = 8 then some (.blockFinality 3) else none) w ∧
      w.startFromEthBlock = some 6 ∧ PassedMatch sampleChains w := by
  obtain ⟨w, hw, hp⟩ := @exists_reachable_of_exec _ _ (step sampleChains)
    (fun w a => ok sampleChains w a = true) _
    (· = start (some 5) (fun n => if n = 8 then some (.blockFinality 3) else none))
    (start (some 5) (fun n => if n = 8 then some (.blockFinality 3) else none)) rfl
    [.mainLoop .ok (some 5) true, .event answered, .mainLoop .ok (some 6) true, .event answered]
    (fun w => decide (w.startFromEthBlock = some 6)) (by decide +kernel)
  exact ⟨w, hw, of_decide_eq_true hp, passed_events_match hw⟩

/-- With an empty storage the relayer passes over the wrong root of block 8. -/
theorem wrong_root_passed_over : ∃ w,
    Reachable (step sampleChains) free (· = start (some 5) fun _ => none) w ∧
      w.startFromEthBlock = some 7 ∧ w.state = .normal ∧ ¬ PassedMatch sampleChains w := by
  obtain ⟨w, hw, hp⟩ := @exists_reachable_of_exec _ _ (step sampleChains) free _
    (· = start (some 5) fun _ => none) (start (some 5) fun _ => none) rfl
    [.mainLoop .ok (some 6) true, .event answered, .event answered]
    (fun w => decide (w.startFromEthBlock = some 7) && decide (w.initialStart = some 5) &&
      decide (w.state = .normal)) (by decide +kernel)
  simp only [Bool.and_eq_true, decide_eq_true_eq] at hp
  obtain ⟨⟨hnext, hfirst⟩, hstate⟩ := hp
  refine ⟨w, hw, hnext, hstate, fun hm => ?_⟩
  have hwrong := (hm 5 7 hfirst hnext 6 (by decide) (by decide) ⟨8, 99⟩ (by decide)).2.2
  exact absurd hwrong (by decide)

end GearBridges.KillSwitch
