import GearBridges.CheckpointLightClient.ReplayBack
import GearBridges.Lib.Transition

/-!
# CheckpointLightClient.System

The program as a transition system.  `SyncUpdate::process` and `ReplayBack::start`
read a snapshot of the state and then wait for the BLS builtin; other messages run in
between, and the results are written to whatever state is there at the end.

* `step` — one message, one resumed execution, or one execution lost to a failed
  builtin reply;
* `Effect`, `step_effect` — everything a step can do.
-/

namespace GearBridges.CheckpointLightClient

open EthereumCommon

section Types

variable (P : Primitives)

/-- What an execution reads before it waits. -/
structure Snapshot where
  network : Network
  slot : Slot
  syncCommitteeCurrent : SyncCommitteeKeys P
  syncCommitteeNext : SyncCommitteeKeys P

inductive Call where
  | process
  | start (headers : List (Header P))

/-- An execution that waits for the BLS builtin. -/
structure Pending where
  call : Call P
  snapshot : Snapshot P
  update : Update P
  bits : List Bool

/-- Argument of `init`.  An aggregate that does not decode is `none`. -/
structure Init where
  network : Network
  syncCommitteeCurrentPubKeys : SyncCommitteeKeys P
  syncCommitteeCurrentAggregatePubkey : P.PubKey
  syncCommitteeCurrentBranch : List P.Hash
  update : Update P
  syncCommitteeBits : Option (List Bool)

structure World where
  state : State P
  pending : List (Pending P)

inductive Action where
  /-- `SyncUpdate::process` up to its wait. -/
  | process (update : Update P) (bits : Option (List Bool))
  /-- `ReplayBack::start` up to its wait. -/
  | start (update : Update P) (bits : Option (List Bool)) (headers : List (Header P))
  /-- A waiting execution goes on. -/
  | finish (i : Nat) (popped : List (Header P))
  /-- A waiting execution panics on a reply of the builtin. -/
  | abort (i : Nat)
  /-- `ReplayBack::process`. -/
  | replay (headers popped : List (Header P))

end Types

variable {P : Primitives}

/-! ## init -/

/-- `init`; `none` is a panic. -/
def init (arg : Init P) : Option (State P) :=
  match arg.syncCommitteeBits, constructSyncCommittee arg.syncCommitteeCurrentAggregatePubkey
      arg.syncCommitteeCurrentPubKeys with
  | some bits, some syncCommitteeCurrent =>
      if isCurrentCommitteeProofValid arg.network arg.update.finalizedHeader syncCommitteeCurrent
          arg.syncCommitteeCurrentBranch then
        match calculatePeriod arg.update.finalizedHeader.slot with
        -- `- 1` underflows; if it wraps, the slot is above every finalized slot of
        -- period 0, `verify` answers `NotActual` and `init` panics all the same
        | 0 => none
        | period + 1 =>
            match verify arg.network (calculateSlot period) arg.syncCommitteeCurrentPubKeys
                arg.syncCommitteeCurrentPubKeys arg.update bits with
            | .ok (some finalizedHeader, some syncCommitteeNext) =>
                some {
                  network := arg.network
                  finalizedHeader := finalizedHeader
                  syncCommitteeCurrent := arg.syncCommitteeCurrentPubKeys
                  syncCommitteeNext := syncCommitteeNext
                  checkpoints := .singleton (P.checkpoint finalizedHeader)
                  replayBack := none }
            | _ => none
      else none
  | _, _ => none

/-! ## SyncUpdate::process -/

def maxEpochsGap : Nat := 3

def State.snapshot (s : State P) : Snapshot P where
  network := s.network
  slot := s.finalizedHeader.slot
  syncCommitteeCurrent := s.syncCommitteeCurrent
  syncCommitteeNext := s.syncCommitteeNext

def Snapshot.verify (sn : Snapshot P) (u : Update P) (bits : List Bool) :
    Except (Error P) (Option (Header P) × Option (SyncCommitteeKeys P)) :=
  CheckpointLightClient.verify sn.network sn.slot sn.syncCommitteeCurrent sn.syncCommitteeNext u bits

def beginProcess (s : State P) (u : Update P) (bits : Option (List Bool)) :
    Except (Error P) (Pending P) :=
  if calculateEpoch s.finalizedHeader.slot + maxEpochsGap ≤
      calculateEpoch u.finalizedHeader.slot then
    .error (.replayBackRequired
      (s.replayBack.map fun r => (r.finalizedHeader.slot, r.lastHeader.slot)) s.checkpoints.last)
  else match bits with
    | none => .error .invalidSyncAggregate
    | some bits => .ok ⟨.process, s.snapshot, u, bits⟩

/-- What `process` writes. -/
def State.applyUpdate (s : State P) (finalizedHeaderUpdate : Option (Header P))
    (committeeUpdate : Option (SyncCommitteeKeys P)) : State P :=
  { s with
    checkpoints := match finalizedHeaderUpdate with
      | none => s.checkpoints
      | some h => s.checkpoints.push (P.checkpoint h)
    finalizedHeader := finalizedHeaderUpdate.getD s.finalizedHeader
    syncCommitteeCurrent :=
      if committeeUpdate.isSome then s.syncCommitteeNext else s.syncCommitteeCurrent
    syncCommitteeNext := committeeUpdate.getD s.syncCommitteeNext }

def finishProcess (s : State P) (p : Pending P) : Except (Error P) (State P) :=
  match p.snapshot.verify p.update p.bits with
  | .error e => .error e
  | .ok (finalizedHeaderUpdate, committeeUpdate) =>
      .ok (s.applyUpdate finalizedHeaderUpdate committeeUpdate)

/-- Rotated committees are among those before and the new one. -/
theorem rotate_current {p : SyncCommitteeKeys P → Prop} {current next : SyncCommitteeKeys P}
    (hcurrent : p current) (hnext : p next) (c : Option (SyncCommitteeKeys P)) :
    p (if c.isSome then next else current) := by
  split
  · exact hnext
  · exact hcurrent

theorem rotate_next {p : SyncCommitteeKeys P → Prop} {next : SyncCommitteeKeys P} (hnext : p next)
    {c : Option (SyncCommitteeKeys P)} (hc : ∀ keys, c = some keys → p keys) :
    p (c.getD next) := by
  cases c with
  | none => exact hnext
  | some keys => exact hc keys rfl

/-! ## ReplayBack::start -/

def beginStart (s : State P) (u : Update P) (bits : Option (List Bool))
    (headers : List (Header P)) : Except (ReplayBackError P) (Pending P) :=
  if s.replayBack.isSome then .error .alreadyStarted
  else match bits with
    | none => .error (.verify .invalidSyncAggregate)
    | some bits => .ok ⟨.start headers, s.snapshot, u, bits⟩

/-- The replay-back that `start` writes. -/
def ReplayBackState.new (finalizedHeader : Header P)
    (committeeUpdate : Option (SyncCommitteeKeys P)) : ReplayBackState P where
  finalizedHeader := finalizedHeader
  syncCommitteeNext := committeeUpdate
  checkpoints := .singleton (P.checkpoint finalizedHeader)
  lastHeader := finalizedHeader

theorem ReplayBackState.Sound.new (f : Header P) (c : Option (SyncCommitteeKeys P)) :
    (ReplayBackState.new f c).Sound := by
  refine ⟨.refl, ?_, rfl⟩
  intro x hx
  simp only [ReplayBackState.new, Checkpoints.singleton, List.mem_singleton] at hx
  exact ⟨f, hx.symm, .refl⟩

def finishStart (s : State P) (p : Pending P) (popped : List (Header P)) :
    Except (ReplayBackError P) (State P × ReplayBackStatus) :=
  match p.snapshot.verify p.update p.bits with
  | .error e => .error (.verify e)
  | .ok (none, _) => .error .noFinalityUpdate
  | .ok (some finalizedHeader, committeeUpdate) =>
      let r := ReplayBackState.new finalizedHeader committeeUpdate
      .ok (processHeaders { s with replayBack := some r } r popped)

/-! ## ReplayBack::process -/

def processReplayBack (s : State P) (popped : List (Header P)) :
    Except (ReplayBackError P) (State P × ReplayBackStatus) :=
  match s.replayBack with
  | none => .error .notStarted
  | some r => .ok (processHeaders s r popped)

/-! ## steps -/

/-- The world after an execution that replied with a result. -/
def World.settle {ε α : Type} (w : World P) (result : Except ε α) (f : α → State P) : World P :=
  match result with
  | .error _ => w
  | .ok a => { w with state := f a }

/-- The world after a message that waits or replied with an error. -/
def World.suspend {ε : Type} (w : World P) (result : Except ε (Pending P)) : World P :=
  match result with
  | .error _ => w
  | .ok p => { w with pending := w.pending ++ [p] }

def step (w : World P) : Action P → Option (World P)
  | .process u bits => some (w.suspend (beginProcess w.state u bits))
  | .start u bits headers => some (w.suspend (beginStart w.state u bits headers))
  | .finish i popped =>
      match w.pending[i]? with
      | none => none
      | some p =>
          let w' := { w with pending := w.pending.eraseIdx i }
          match p.call with
          | .process => some (w'.settle (finishProcess w.state p) id)
          | .start headers =>
              if Popped headers popped then some (w'.settle (finishStart w.state p popped) Prod.fst)
              else none
  | .abort i =>
      if i < w.pending.length then some { w with pending := w.pending.eraseIdx i } else none
  | .replay headers popped =>
      if Popped headers popped then some (w.settle (processReplayBack w.state popped) Prod.fst)
      else none

/-- The world right after `init`: nothing waits. -/
def StartsAt (s : State P) (w : World P) : Prop := w = ⟨s, []⟩

/-- Everything a step can do. -/
inductive Effect (w : World P) : Action P → World P → Prop
  | suspended {a : Action P} (p : Pending P) (hsnapshot : p.snapshot = w.state.snapshot) :
      Effect w a { w with pending := w.pending ++ [p] }
  | unchanged {a : Action P} (pending : List (Pending P)) (hpending : pending ⊆ w.pending) :
      Effect w a { w with pending := pending }
  | updated {i : Nat} {popped : List (Header P)} (p : Pending P) (f : Option (Header P))
      (c : Option (SyncCommitteeKeys P)) (hp : w.pending[i]? = some p) (hcall : p.call = .process)
      (hverify : p.snapshot.verify p.update p.bits = .ok (f, c)) :
      Effect w (.finish i popped) ⟨w.state.applyUpdate f c, w.pending.eraseIdx i⟩
  | started {i : Nat} {popped : List (Header P)} (p : Pending P) (f : Header P)
      (c : Option (SyncCommitteeKeys P)) (headers : List (Header P))
      (hp : w.pending[i]? = some p) (hcall : p.call = .start headers)
      (hverify : p.snapshot.verify p.update p.bits = .ok (some f, c)) :
      Effect w (.finish i popped)
        ⟨(processHeaders { w.state with replayBack := some (.new f c) } (.new f c) popped).1,
          w.pending.eraseIdx i⟩
  | replayed {headers popped : List (Header P)} (r : ReplayBackState P)
      (hr : w.state.replayBack = some r) :
      Effect w (.replay headers popped) { w with state := (processHeaders w.state r popped).1 }

theorem beginProcess_ok {s : State P} {u : Update P} {bits : Option (List Bool)} {p : Pending P}
    (h : beginProcess s u bits = .ok p) : p.snapshot = s.snapshot := by
  unfold beginProcess at h
  split at h
  · contradiction
  · split at h
    · contradiction
    · cases h
      rfl

theorem beginStart_ok {s : State P} {u : Update P} {bits : Option (List Bool)}
    {headers : List (Header P)} {p : Pending P} (h : beginStart s u bits headers = .ok p) :
    p.snapshot = s.snapshot := by
  unfold beginStart at h
  split at h
  · contradiction
  · split at h
    · contradiction
    · cases h
      rfl

theorem suspend_effect {ε : Type} {w : World P} {a : Action P} {result : Except ε (Pending P)}
    (h : ∀ p, result = .ok p → p.snapshot = w.state.snapshot) : Effect w a (w.suspend result) := by
  unfold World.suspend
  cases result with
  | error e => exact .unchanged w.pending (List.Subset.refl _)
  | ok p => exact .suspended p (h p rfl)

theorem finish_effect {w w' : World P} {i : Nat} {popped : List (Header P)}
    (h : step w (.finish i popped) = some w') : Effect w (.finish i popped) w' := by
  simp only [step] at h
  split at h
  · contradiction
  · rename_i p hp
    have hdrop : Effect w (.finish i popped) { w with pending := w.pending.eraseIdx i } :=
      .unchanged _ (List.eraseIdx_subset)
    split at h
    · rename_i hcall
      simp only [finishProcess] at h
      split at h
      · cases h
        exact hdrop
      · rename_i f c hverify
        cases h
        exact .updated p f c hp hcall hverify
    · rename_i headers hcall
      split at h
      · simp only [finishStart] at h
        split at h
        · cases h
          exact hdrop
        · cases h
          exact hdrop
        · rename_i f c hverify
          cases h
          exact .started p f c headers hp hcall hverify
      · contradiction

theorem replay_effect {w w' : World P} {headers popped : List (Header P)}
    (h : step w (.replay headers popped) = some w') : Effect w (.replay headers popped) w' := by
  simp only [step] at h
  split at h
  · simp only [processReplayBack] at h
    split at h
    · cases h
      exact .unchanged w.pending (List.Subset.refl _)
    · rename_i r hr
      cases h
      exact .replayed r hr
  · contradiction

/-- Every step has one of the effects. -/
theorem step_effect {w w' : World P} {a : Action P} (h : step w a = some w') : Effect w a w' := by
  cases a with
  | process u bits =>
      cases h
      exact suspend_effect fun p hp => beginProcess_ok hp
  | start u bits headers =>
      cases h
      exact suspend_effect fun p hp => beginStart_ok hp
  | finish i popped => exact finish_effect h
  | abort i =>
      simp only [step] at h
      split at h
      · cases h
        exact .unchanged _ List.eraseIdx_subset
      · contradiction
  | replay headers popped => exact replay_effect h

end GearBridges.CheckpointLightClient
