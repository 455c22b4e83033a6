import GearBridges.CheckpointLightClient.SyncUpdate
import Mathlib.Data.List.Pairwise

/-!
# CheckpointLightClient.ReplayBack

Replaying headers from a finalized header down to the newest checkpoint.  The headers
come from anybody; what ties them to the finalized header is that each is the parent
of the one before it (`Linked`).
-/

namespace GearBridges.CheckpointLightClient

open EthereumCommon

variable {P : Primitives}

/-! ## process_headers -/

/-- The order in which headers leave the vector: `sort_unstable_by` on the slot, then
`pop`.  Headers of one slot may come out in any order. -/
def Popped (headers popped : List (Header P)) : Prop :=
  popped.Perm headers ∧ popped.Pairwise fun a b => b.slot ≤ a.slot

instance (headers popped : List (Header P)) : Decidable (Popped headers popped) :=
  inferInstanceAs (Decidable (_ ∧ _))

/-- Headers of different slots come out in one order, whatever order they came in. -/
theorem Popped.unique {headers headers' popped popped' : List (Header P)}
    (hdistinct : headers.Pairwise fun a b => a.slot ≠ b.slot) (hperm : headers'.Perm headers)
    (h : Popped headers popped) (h' : Popped headers' popped') : popped = popped' := by
  have hpopped : popped.Perm popped' := h.1.trans (h'.1.trans hperm).symm
  refine hpopped.eq_of_pairwise ?_ h.2 h'.2
  intro a b ha hb hab hba
  have : Std.Symm fun a b : Header P => a.slot ≠ b.slot := ⟨fun _ _ h => h.symm⟩
  by_contra hne
  have hslot := hdistinct.forall (h.1.subset ha) ((h'.1.trans hperm).subset hb) hne
  exact hslot (Nat.le_antisymm hba hab)

/-- A header becomes the last one; it is a checkpoint if it starts an epoch or lies
more than an epoch below the checkpoint before it.  The sum is one of `u64`. -/
def ReplayBackState.replay (r : ReplayBackState P) (header : Header P) : ReplayBackState P :=
  { r with
    lastHeader := header
    checkpoints :=
      if header.slot % slotsPerEpoch = 0 ∨
          (header.slot + slotsPerEpoch) % 2 ^ 64 < r.checkpoints.last.1 then
        r.checkpoints.concat (P.checkpoint header)
      else r.checkpoints }

/-- The loop of `process_headers` above the newest checkpoint. -/
def replayHeaders (newest : Checkpoint P) : ReplayBackState P → List (Header P) → ReplayBackState P
  | r, [] => r
  | r, header :: popped =>
      if P.headerRoot header ≠ r.lastHeader.parentRoot then r
      else if P.checkpoint header = newest then r
      else replayHeaders newest (r.replay header) popped

/-- The end of a replay-back: its checkpoints are moved, the committees rotate if the
update brought a new one. -/
def State.finishReplayBack (s : State P) (r : ReplayBackState P) : State P :=
  { s with
    checkpoints := s.checkpoints.pushAll r.checkpoints
    syncCommitteeCurrent :=
      if r.syncCommitteeNext.isSome then s.syncCommitteeNext else s.syncCommitteeCurrent
    syncCommitteeNext := r.syncCommitteeNext.getD s.syncCommitteeNext
    finalizedHeader := r.finalizedHeader
    replayBack := none }

/-- `process_headers` on a state whose replay-back is `r`. -/
def processHeaders (s : State P) (r : ReplayBackState P) (popped : List (Header P)) :
    State P × ReplayBackStatus :=
  let newest := s.checkpoints.last
  let r' := replayHeaders newest r popped
  if r'.lastHeader.parentRoot ≠ newest.2 then ({ s with replayBack := some r' }, .inProcess)
  else (s.finishReplayBack r', .finished)

/-! ## where the loop stops -/

/-- The last header of the loop. -/
def replayLast (newest : Checkpoint P) : Header P → List (Header P) → Header P
  | last, [] => last
  | last, header :: popped =>
      if P.headerRoot header ≠ last.parentRoot then last
      else if P.checkpoint header = newest then last
      else replayLast newest header popped

/-- The headers join a last header to the newest checkpoint. -/
def Joins (newest : Checkpoint P) (last : Header P) (popped : List (Header P)) : Prop :=
  (replayLast newest last popped).parentRoot = newest.2

instance (newest : Checkpoint P) (last : Header P) (popped : List (Header P)) :
    Decidable (Joins newest last popped) :=
  inferInstanceAs (Decidable (_ = _))

theorem replayHeaders_lastHeader (newest : Checkpoint P) (r : ReplayBackState P)
    (popped : List (Header P)) :
    (replayHeaders newest r popped).lastHeader = replayLast newest r.lastHeader popped := by
  induction popped generalizing r with
  | nil => rfl
  | cons header popped ih =>
      unfold replayHeaders replayLast
      split
      · rfl
      · split
        · rfl
        · exact ih (r.replay header)

/-- **What `process_headers` does**: the replay-back is finished if the headers join it
to the newest checkpoint, and otherwise kept with the linked headers replayed. -/
theorem processHeaders_cases (s : State P) (r : ReplayBackState P) (popped : List (Header P)) :
    (Joins s.checkpoints.last r.lastHeader popped ∧ processHeaders s r popped =
      (s.finishReplayBack (replayHeaders s.checkpoints.last r popped), .finished)) ∨
    (¬ Joins s.checkpoints.last r.lastHeader popped ∧ processHeaders s r popped =
      ({ s with replayBack := some (replayHeaders s.checkpoints.last r popped) }, .inProcess)) := by
  unfold processHeaders Joins
  simp only [replayHeaders_lastHeader]
  by_cases h : (replayLast s.checkpoints.last r.lastHeader popped).parentRoot =
      s.checkpoints.last.2
  · exact .inl ⟨h, if_neg (not_not.mpr h)⟩
  · exact .inr ⟨h, if_pos h⟩

/-! ## linked headers -/

/-- Reached from `top` by `parentRoot` links. -/
inductive Linked (top : Header P) : Header P → Prop
  | refl : Linked top top
  | parent {h h' : Header P} : Linked top h → P.headerRoot h' = h.parentRoot → Linked top h'

/-- The last header and the checkpoints of a replay-back are linked to its finalized
header, whose checkpoint comes first. -/
structure ReplayBackState.Sound (r : ReplayBackState P) : Prop where
  last : Linked r.finalizedHeader r.lastHeader
  checkpoints : ∀ c ∈ r.checkpoints.entries, ∃ h, P.checkpoint h = c ∧ Linked r.finalizedHeader h
  first : r.checkpoints.first = P.checkpoint r.finalizedHeader

theorem ReplayBackState.Sound.replay {r : ReplayBackState P} (hr : r.Sound) {header : Header P}
    (hlink : P.headerRoot header = r.lastHeader.parentRoot) : (r.replay header).Sound := by
  have hheader : Linked r.finalizedHeader header := .parent hr.last hlink
  constructor
  · exact hheader
  · intro c hc
    unfold ReplayBackState.replay at hc ⊢
    simp only at hc ⊢
    split at hc
    · have hc : c ∈ r.checkpoints.entries ∨ c = P.checkpoint header := by
        simpa [Checkpoints.concat] using hc
      cases hc with
      | inl hc => exact hr.checkpoints c hc
      | inr hc => exact ⟨header, hc.symm, hheader⟩
    · exact hr.checkpoints c hc
  · unfold ReplayBackState.replay
    simp only
    split
    · rw [Checkpoints.first_concat, hr.first]
    · exact hr.first

theorem replay_finalizedHeader (r : ReplayBackState P) (header : Header P) :
    (r.replay header).finalizedHeader = r.finalizedHeader := rfl

theorem replay_syncCommitteeNext (r : ReplayBackState P) (header : Header P) :
    (r.replay header).syncCommitteeNext = r.syncCommitteeNext := rfl

/-- **What the loop keeps**: a property of replay-backs kept by replaying one linked
header that is not the newest checkpoint. -/
theorem replayHeaders_invariant {newest : Checkpoint P} {I : ReplayBackState P → Prop}
    (hstep : ∀ r header, I r → P.headerRoot header = r.lastHeader.parentRoot →
      P.checkpoint header ≠ newest → I (r.replay header))
    {r : ReplayBackState P} (hr : I r) (popped : List (Header P)) :
    I (replayHeaders newest r popped) := by
  induction popped generalizing r with
  | nil => exact hr
  | cons header popped ih =>
      unfold replayHeaders
      by_cases hlink : P.headerRoot header = r.lastHeader.parentRoot
      · rw [if_neg (not_not.mpr hlink)]
        by_cases hnewest : P.checkpoint header = newest
        · rw [if_pos hnewest]
          exact hr
        · rw [if_neg hnewest]
          exact ih (hstep r header hr hlink hnewest)
      · rw [if_pos hlink]
        exact hr

theorem replayHeaders_sound {newest : Checkpoint P} {r : ReplayBackState P} (hr : r.Sound)
    (popped : List (Header P)) : (replayHeaders newest r popped).Sound :=
  replayHeaders_invariant (fun _ _ h hlink _ => h.replay hlink) hr popped

@[simp] theorem replayHeaders_finalizedHeader (newest : Checkpoint P) (r : ReplayBackState P)
    (popped : List (Header P)) :
    (replayHeaders newest r popped).finalizedHeader = r.finalizedHeader :=
  replayHeaders_invariant (I := fun r' => r'.finalizedHeader = r.finalizedHeader)
    (fun r' header h _ _ => (replay_finalizedHeader r' header).trans h) rfl popped

@[simp] theorem replayHeaders_syncCommitteeNext (newest : Checkpoint P) (r : ReplayBackState P)
    (popped : List (Header P)) :
    (replayHeaders newest r popped).syncCommitteeNext = r.syncCommitteeNext :=
  replayHeaders_invariant (I := fun r' => r'.syncCommitteeNext = r.syncCommitteeNext)
    (fun r' header h _ _ => (replay_syncCommitteeNext r' header).trans h) rfl popped

end GearBridges.CheckpointLightClient
