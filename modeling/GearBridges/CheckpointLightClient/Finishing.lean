import GearBridges.CheckpointLightClient.HonestChain

/-!
# CheckpointLightClient.Finishing

Whether a replay-back can be finished.  It ends when its headers reach the newest
checkpoint, so that checkpoint has to stay below the last header replayed.  Nothing in
the program keeps it there: sync updates push checkpoints while a replay-back is open,
and a replay-back is written for an update that was verified against an older state.
`keepsFinishable` excludes both; `unfinishable` is a run with the first.
-/

namespace GearBridges.CheckpointLightClient

open EthereumCommon Transition

variable {P : Primitives} {network : Network}

/-- Some list of blocks makes `process` return `Finished`, whatever order the sort
leaves it in. -/
def Finishable (chain : HonestChain P network) (s : State P) : Prop :=
  ∃ headers, (∀ h ∈ headers, ∃ n, h = chain.block n) ∧ (∃ popped, Popped headers popped) ∧
    ∀ popped, Popped headers popped → ∃ s', processReplayBack s popped = .ok (s', .finished)

/-- The newest checkpoint is a block below the last header of the replay-back. -/
def CheckpointBelow (chain : HonestChain P network) (s : State P) (r : ReplayBackState P) : Prop :=
  ∃ a b, a < b ∧ s.checkpoints.last = P.checkpoint (chain.block a) ∧ r.lastHeader = chain.block b

/-! ## the guard -/

/-- A sync update is written below the last header of an open replay-back, and a
replay-back is written above the finalized header.  Nothing is asked of an update that
does not verify. -/
def keepsFinishable (w : World P) : Action P → Bool
  | .finish i _ =>
      match w.pending[i]? with
      | none => true
      | some p =>
          let slot := p.update.finalizedHeader.slot
          match p.snapshot.verify p.update p.bits, p.call with
          | .error _, _ => true
          | .ok _, .process => w.state.replayBack.all fun r => decide (slot < r.lastHeader.slot)
          | .ok _, .start _ => decide (w.state.finalizedHeader.slot < slot)
  | _ => true

def KeepsFinishable (w : World P) (a : Action P) : Prop := keepsFinishable w a = true

instance : ∀ (w : World P) (a : Action P), Decidable (KeepsFinishable w a) := fun w a =>
  inferInstanceAs (Decidable (keepsFinishable w a = true))

section

variable (chain : HonestChain P network)

/-! ## the headers that finish a replay-back -/

/-- The `d` blocks above block `a`, newest first. -/
def HonestChain.above (a : Nat) : Nat → List (Header P)
  | 0 => []
  | d + 1 => chain.block (a + d + 1) :: above a d

theorem HonestChain.mem_above {a d : Nat} {h : Header P} (hh : h ∈ chain.above a d) :
    ∃ n ≤ a + d, h = chain.block n := by
  induction d with
  | zero => simp [above] at hh
  | succ d ih =>
      rcases List.mem_cons.mp hh with rfl | hh
      · exact ⟨a + d + 1, Nat.le_refl _, rfl⟩
      · obtain ⟨n, hn, h⟩ := ih hh
        exact ⟨n, by omega, h⟩

theorem HonestChain.above_pairwise (a d : Nat) :
    (chain.above a d).Pairwise fun x y => y.slot ≤ x.slot := by
  induction d with
  | zero => exact .nil
  | succ d ih =>
      refine .cons ?_ ih
      intro h hh
      obtain ⟨n, hn, rfl⟩ := chain.mem_above hh
      exact chain.slot_strictMono.monotone (by omega)

/-- Blocks come out of the sort in one order only. -/
theorem HonestChain.popped_above {a d : Nat} {popped : List (Header P)}
    (h : Popped (chain.above a d) popped) : popped = chain.above a d := by
  obtain ⟨hperm, hsorted⟩ := h
  refine hperm.eq_of_pairwise ?_ hsorted (chain.above_pairwise a d)
  intro x y hx hy hxy hyx
  obtain ⟨m, _, rfl⟩ := chain.mem_above (hperm.subset hx)
  obtain ⟨n, _, rfl⟩ := chain.mem_above hy
  rw [chain.block_injective (Nat.le_antisymm hyx hxy)]

/-- Replaying the blocks between the newest checkpoint and the last header ends right
above the checkpoint. -/
theorem HonestChain.replayLast_above (a d : Nat) :
    replayLast (P.checkpoint (chain.block a)) (chain.block (a + d + 1)) (chain.above a d) =
      chain.block (a + 1) := by
  induction d with
  | zero => rfl
  | succ d ih =>
      have hlink : P.headerRoot (chain.block (a + d + 1)) =
          (chain.block (a + (d + 1) + 1)).parentRoot := (chain.parentRoot_succ _).symm
      have hne : P.checkpoint (chain.block (a + d + 1)) ≠ P.checkpoint (chain.block a) := by
        intro h
        have := chain.checkpoint_injective h
        omega
      rw [above, replayLast, if_neg (not_not.mpr hlink), if_neg hne]
      exact ih

/-- A replay-back above the newest checkpoint can be finished. -/
theorem finishable_of_checkpointBelow {s : State P} {r : ReplayBackState P}
    (hr : s.replayBack = some r) (h : CheckpointBelow chain s r) : Finishable chain s := by
  obtain ⟨a, b, hab, hnewest, hlast⟩ := h
  obtain ⟨d, rfl⟩ : ∃ d, b = a + d + 1 := ⟨b - a - 1, by omega⟩
  refine ⟨chain.above a d, ?_, ⟨_, .refl _, chain.above_pairwise a d⟩, ?_⟩
  · intro h hh
    obtain ⟨n, _, hn⟩ := chain.mem_above hh
    exact ⟨n, hn⟩
  · intro popped hpopped
    rw [chain.popped_above hpopped]
    have hjoins : Joins s.checkpoints.last r.lastHeader (chain.above a d) := by
      unfold Joins
      rw [hnewest, hlast, chain.replayLast_above]
      exact chain.parentRoot_succ a
    simp only [processReplayBack, hr]
    cases processHeaders_cases s r (chain.above a d) with
    | inl h => exact ⟨_, congrArg Except.ok h.2⟩
    | inr h => exact absurd hjoins h.1

/-- Replaying headers from a block above the newest checkpoint stays above it. -/
theorem HonestChain.replayLast_block {a b : Nat} (hab : a < b) (popped : List (Header P)) :
    ∃ b', a < b' ∧ replayLast (P.checkpoint (chain.block a)) (chain.block b) popped =
      chain.block b' := by
  induction popped generalizing b with
  | nil => exact ⟨b, hab, rfl⟩
  | cons header popped ih =>
      unfold replayLast
      split
      · exact ⟨b, hab, rfl⟩
      · rename_i hlink
        split
        · exact ⟨b, hab, rfl⟩
        · rename_i hne
          obtain ⟨b, rfl⟩ : ∃ c, b = c + 1 := ⟨b - 1, by omega⟩
          have hheader : header = chain.block b := chain.parent_block (not_not.mp hlink)
          subst hheader
          have : a ≠ b := by
            intro h
            subst h
            exact hne rfl
          exact ih (by omega)

/-! ## runs -/

/-- What honesty gives in every run, guarded or not: committees of the chain, and the
finalized block as the newest checkpoint. -/
structure OnChain (s : State P) : Prop where
  network_eq : s.network = network
  current : chain.Genuine s.syncCommitteeCurrent
  next : chain.Genuine s.syncCommitteeNext
  finalized : ∃ a, s.finalizedHeader = chain.block a
  newest : s.checkpoints.last = P.checkpoint s.finalizedHeader

/-- The same of a replay-back. -/
structure ReplayOnChain (r : ReplayBackState P) : Prop where
  sound : r.Sound
  committee : ∀ keys, r.syncCommitteeNext = some keys → chain.Genuine keys
  finalized : ∃ a, r.finalizedHeader = chain.block a

structure FinishInv (w : World P) : Prop where
  state : OnChain chain w.state
  snapshots : chain.GenuineSnapshots w
  replayBack : ∀ r, w.state.replayBack = some r →
    ReplayOnChain chain r ∧ CheckpointBelow chain w.state r

variable {chain}

theorem OnChain.applyUpdate {s : State P} (hs : OnChain chain s) {f : Header P}
    {c : Option (SyncCommitteeKeys P)} (hf : ∃ a, f = chain.block a)
    (hc : ∀ keys, c = some keys → chain.Genuine keys) : OnChain chain (s.applyUpdate (some f) c) where
  network_eq := hs.network_eq
  current := rotate_current hs.current hs.next c
  next := rotate_next hs.next hc
  finalized := hf
  newest := Checkpoints.last_push _ _

theorem OnChain.finishReplayBack {s : State P} (hs : OnChain chain s) {r : ReplayBackState P}
    (hr : ReplayOnChain chain r) : OnChain chain (s.finishReplayBack r) where
  network_eq := hs.network_eq
  current := rotate_current hs.current hs.next r.syncCommitteeNext
  next := rotate_next hs.next hr.committee
  finalized := hr.finalized
  newest := (Checkpoints.last_pushAll _ _).trans hr.sound.first

theorem ReplayOnChain.replayHeaders {r : ReplayBackState P} (hr : ReplayOnChain chain r)
    (newest : Checkpoint P) (popped : List (Header P)) :
    ReplayOnChain chain (replayHeaders newest r popped) where
  sound := replayHeaders_sound hr.sound popped
  committee := by
    rw [replayHeaders_syncCommitteeNext]
    exact hr.committee
  finalized := by
    rw [replayHeaders_finalizedHeader]
    exact hr.finalized

theorem OnChain.processHeaders {s : State P} (hs : OnChain chain s) {r : ReplayBackState P}
    (hr : ReplayOnChain chain r) (hbelow : CheckpointBelow chain s r) (popped : List (Header P)) :
    OnChain chain (processHeaders s r popped).1 ∧
    ∀ r', (processHeaders s r popped).1.replayBack = some r' →
      ReplayOnChain chain r' ∧ CheckpointBelow chain (processHeaders s r popped).1 r' := by
  have hr' := hr.replayHeaders s.checkpoints.last popped
  cases processHeaders_cases s r popped with
  | inl h =>
      rw [h.2]
      exact ⟨hs.finishReplayBack hr', by simp [State.finishReplayBack]⟩
  | inr h =>
      rw [h.2]
      refine ⟨⟨hs.network_eq, hs.current, hs.next, hs.finalized, hs.newest⟩, ?_⟩
      intro r' heq
      cases heq
      obtain ⟨a, b, hab, hnewest, hlast⟩ := hbelow
      obtain ⟨b', hab', hlast'⟩ := chain.replayLast_block hab popped
      refine ⟨hr', a, b', hab', hnewest, ?_⟩
      rw [replayHeaders_lastHeader, hlast, hnewest, hlast']

theorem ReplayOnChain.new {f : Header P} {c : Option (SyncCommitteeKeys P)}
    (hf : ∃ a, f = chain.block a) (hc : ∀ keys, c = some keys → chain.Genuine keys) :
    ReplayOnChain chain (.new f c) where
  sound := .new f c
  committee := hc
  finalized := hf

theorem FinishInv.step {w w' : World P} {a : Action P} (h : FinishInv chain w)
    (hok : KeepsFinishable w a) (hstep : step w a = some w') : FinishInv chain w' := by
  cases step_effect hstep with
  | suspended p hsnapshot =>
      exact { h with
        snapshots := h.snapshots.suspend hsnapshot h.state.network_eq h.state.current
          h.state.next }
  | unchanged pending hpending => exact { h with snapshots := h.snapshots.of_subset hpending }
  | updated p f c hp hcall hverify =>
      obtain ⟨rfl, hf, _, hc⟩ := h.snapshots.verify hp hverify
      refine ⟨h.state.applyUpdate hf fun keys hkeys => ⟨_, hc keys hkeys⟩,
        h.snapshots.of_subset List.eraseIdx_subset, ?_⟩
      intro r hr
      have hr : w.state.replayBack = some r := hr
      simp only [KeepsFinishable, keepsFinishable, hp, hcall, hverify, hr, Option.all_some,
        decide_eq_true_eq] at hok
      obtain ⟨hreplay, _, b, _, _, hlast⟩ := h.replayBack r hr
      obtain ⟨k, hk⟩ := hf
      -- the new newest checkpoint is the block just written
      refine ⟨hreplay, k, b, ?_, ?_, hlast⟩
      · rw [hk, hlast] at hok
        exact chain.slot_lt_iff.mp hok
      · rw [← hk]
        exact Checkpoints.last_push _ _
  | started p f c headers hp hcall hverify =>
      obtain ⟨hf, hblock, _, hc⟩ := h.snapshots.verify hp hverify
      cases hf
      simp only [KeepsFinishable, keepsFinishable, hp, hcall, hverify, decide_eq_true_eq] at hok
      have hr : ReplayOnChain chain (.new p.update.finalizedHeader c) :=
        .new hblock fun keys hkeys => ⟨_, hc keys hkeys⟩
      have hs : OnChain chain
          { w.state with replayBack := some (.new p.update.finalizedHeader c) } :=
        ⟨h.state.network_eq, h.state.current, h.state.next, h.state.finalized, h.state.newest⟩
      obtain ⟨a, ha⟩ := h.state.finalized
      obtain ⟨b, hb⟩ := hblock
      have hbelow : CheckpointBelow chain
          { w.state with replayBack := some (.new p.update.finalizedHeader c) }
          (.new p.update.finalizedHeader c) := by
        refine ⟨a, b, ?_, ?_, hb⟩
        · rw [ha, hb] at hok
          exact chain.slot_lt_iff.mp hok
        · rw [← ha]
          exact h.state.newest
      obtain ⟨hstate, hreplay⟩ := hs.processHeaders hr hbelow _
      exact ⟨hstate, h.snapshots.of_subset List.eraseIdx_subset, hreplay⟩
  | replayed r hr =>
      obtain ⟨hreplay, hbelow⟩ := h.replayBack r hr
      obtain ⟨hstate, hreplay'⟩ := h.state.processHeaders hreplay hbelow _
      exact ⟨hstate, h.snapshots, hreplay'⟩

/-- **A replay-back can always be finished** in the runs that keep the newest checkpoint
below it. -/
theorem finishable_of_reachable (chain : HonestChain P network) {arg : Init P} {s : State P}
    (hnetwork : arg.network = network)
    (hblock : ∃ n, arg.update.finalizedHeader = chain.block n) (hinit : init arg = some s)
    {w : World P} (h : Reachable step KeepsFinishable (StartsAt s) w) {r : ReplayBackState P}
    (hr : w.state.replayBack = some r) :
    CheckpointBelow chain w.state r ∧ Finishable chain w.state := by
  have hinv : FinishInv chain w := by
    refine Reachable.invariant (I := FinishInv chain) ?_
      (fun _ _ _ hI hok hstep => hI.step hok hstep) h
    intro w hw
    subst hw
    obtain ⟨n, hblock⟩ := hblock
    obtain ⟨hn, hfinalized, hcurrent, hnext, hcheckpoints, hreplay⟩ :=
      chain.init_block hnetwork hblock hinit
    refine ⟨⟨hn, ⟨_, hcurrent⟩, ⟨_, hnext⟩, ⟨n, hfinalized⟩, ?_⟩,
      by simp [HonestChain.GenuineSnapshots], by simp [hreplay]⟩
    simp [hcheckpoints]
  have hbelow := (hinv.replayBack r hr).2
  exact ⟨hbelow, finishable_of_checkpointBelow chain hr hbelow⟩

end

/-- A replay-back that is under way. -/
theorem finishable_of_reachable_ledger : ∃ w r,
    Reachable step KeepsFinishable (StartsAt ledgerStart) w ∧ w.state.replayBack = some r ∧
      CheckpointBelow ledgerChain w.state r ∧ Finishable ledgerChain w.state := by
  obtain ⟨w, h, hreplay⟩ := exists_reachable_of_exec step KeepsFinishable
    (show StartsAt ledgerStart ⟨ledgerStart, []⟩ from rfl)
    [.start (ledgerUpdate 3 true) ledgerBits [], .finish 0 []]
    (fun w => w.state.replayBack.isSome) (by rw [ledgerStart_eq]; decide +kernel)
  obtain ⟨r, hr⟩ := Option.isSome_iff_exists.mp hreplay
  exact ⟨w, r, h, hr, finishable_of_reachable ledgerChain rfl ⟨0, rfl⟩ init_ledgerInit h hr⟩

/-! ## an update written over an open replay-back -/

open Digest in
/-- Replaying headers from a block of the ledger leads to a block not above it. -/
theorem replayLast_ledgerBlock (newest : Checkpoint ledgerPrimitives) (b : Nat)
    (popped : List (Header ledgerPrimitives)) :
    ∃ b' ≤ b, replayLast newest (ledgerBlock b) popped = ledgerBlock b' := by
  induction popped generalizing b with
  | nil => exact ⟨b, Nat.le_refl b, rfl⟩
  | cons header popped ih =>
      unfold replayLast
      split
      · exact ⟨b, Nat.le_refl b, rfl⟩
      · rename_i hlink
        split
        · exact ⟨b, Nat.le_refl b, rfl⟩
        · have hlink := not_not.mp hlink
          cases b with
          | zero => exact absurd hlink (by simp [ledgerBlock, ledgerParent])
          | succ b =>
              rw [eq_ledgerBlock hlink]
              obtain ⟨b', hb', h⟩ := ih b
              exact ⟨b', by omega, h⟩

open Digest in
theorem ledgerParent_ne {b c : Nat} (h : b ≤ c) : ledgerParent b ≠ ledgerParent (c + 1) := by
  intro heq
  cases b with
  | zero => simp [ledgerParent] at heq
  | succ b =>
      have hblock : ledgerBlock b = ledgerBlock c := headerRoot_ledger_injective heq
      have := ledgerChain.block_injective (congrArg BlockHeader.slot hblock)
      omega

open Digest in
/-- A replay-back whose last header is the newest checkpoint is never joined to it. -/
theorem not_finishable_ledger {s : State ledgerPrimitives} {r : ReplayBackState ledgerPrimitives}
    {b : Nat} (hr : s.replayBack = some r) (hlast : r.lastHeader = ledgerBlock b)
    (hnewest : s.checkpoints.last = ledgerPrimitives.checkpoint (ledgerBlock b)) :
    ¬ CheckpointBelow ledgerChain s r ∧ ¬ Finishable ledgerChain s := by
  constructor
  · intro ⟨a, b', hab, ha, hb'⟩
    have ha := ledgerChain.checkpoint_injective (hnewest.symm.trans ha)
    have hb' := ledgerChain.block_injective (congrArg BlockHeader.slot (hlast.symm.trans hb'))
    omega
  · intro ⟨headers, _, ⟨popped, hpopped⟩, hfinished⟩
    obtain ⟨s', hs'⟩ := hfinished popped hpopped
    simp only [processReplayBack, hr] at hs'
    cases processHeaders_cases s r popped with
    | inl h =>
        obtain ⟨b', hb', hreplay⟩ := replayLast_ledgerBlock s.checkpoints.last b popped
        have hjoins := h.1
        unfold Joins at hjoins
        rw [hlast, hreplay, hnewest] at hjoins
        exact ledgerParent_ne hb' hjoins
    | inr h =>
        rw [h.2] at hs'
        cases hs'

/-- The update a replay-back was started for is processed while it is open: its header
becomes the newest checkpoint, which the replay-back can no longer reach. -/
theorem unfinishable : init ledgerInit = some ledgerStart ∧
    (∃ n, ledgerInit.update.finalizedHeader = ledgerChain.block n) ∧
    ∃ w r, Reachable step free (StartsAt ledgerStart) w ∧ w.state.replayBack = some r ∧
      ¬ CheckpointBelow ledgerChain w.state r ∧ ¬ Finishable ledgerChain w.state := by
  refine ⟨init_ledgerInit, ⟨0, rfl⟩, ?_⟩
  obtain ⟨w, h, hw⟩ := exists_reachable_of_exec step free
    (show StartsAt ledgerStart ⟨ledgerStart, []⟩ from rfl)
    [.start (ledgerUpdate 3 true) ledgerBits [], .finish 0 [],
      .process (ledgerUpdate 3 true) ledgerBits, .finish 0 []]
    (fun w => match w.state.replayBack with
      | none => false
      | some r => decide (r.lastHeader = Digest.ledgerBlock 2 ∧
          w.state.checkpoints.last = ledgerPrimitives.checkpoint (Digest.ledgerBlock 2)))
    (by rw [ledgerStart_eq]; decide +kernel)
  cases hr : w.state.replayBack with
  | none => simp [hr] at hw
  | some r =>
      rw [hr] at hw
      obtain ⟨hlast, hnewest⟩ := of_decide_eq_true hw
      exact ⟨w, r, h, hr, not_finishable_ledger hr hlast hnewest⟩

end GearBridges.CheckpointLightClient
