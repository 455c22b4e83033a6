import GearBridges.CheckpointLightClient.HonestChain

/-!
# CheckpointLightClient.Alignment

The two stored committees against the period of the finalized header.  `verify` picks
the signing committee by that period, so a client whose committees lag behind rejects
every later update.

Committees rotate and the finalized header moves under different conditions: an update
may move the header into the next period without bringing a committee, and what an
execution verified before it waited is written to a state that has moved on.
`keepsAlignment` excludes the writes in which the two do not go together; `lagging` is a
run with one.
-/

namespace GearBridges.CheckpointLightClient

open EthereumCommon Transition

variable {P : Primitives} {network : Network}

/-- The stored committees are those of the period of the finalized header and of the
period after it. -/
structure Aligned (chain : HonestChain P network) (s : State P) : Prop where
  current : s.syncCommitteeCurrent = chain.committeeAt s.finalizedHeader.slot
  next : s.syncCommitteeNext = chain.committee (calculatePeriod s.finalizedHeader.slot + 1)

/-! ## the guard -/

/-- A new finalized header is one period ahead if the committees rotate with it, and in
the same period otherwise. -/
def movesInStep (s : State P) (finalized : Header P) (rotates : Bool) : Bool :=
  calculatePeriod finalized.slot == calculatePeriod s.finalizedHeader.slot + rotates.toNat

/-- Finalized headers and committees are written together.  Nothing is asked of an
update that does not verify or of headers that do not reach the newest checkpoint. -/
def keepsAlignment (w : World P) : Action P → Bool
  | .finish i popped =>
      match w.pending[i]? with
      | none => true
      | some p =>
          let finalized := p.update.finalizedHeader
          let moves := movesInStep w.state finalized
            (p.update.rotates (calculatePeriod p.snapshot.slot))
          match p.snapshot.verify p.update p.bits, p.call with
          | .error _, _ => true
          | .ok _, .process => moves
          | .ok _, .start _ => moves || !decide (Joins w.state.checkpoints.last finalized popped)
  | .replay _ popped =>
      match w.state.replayBack with
      | none => true
      | some r => movesInStep w.state r.finalizedHeader r.syncCommitteeNext.isSome ||
          !decide (Joins w.state.checkpoints.last r.lastHeader popped)
  | _ => true

def KeepsAlignment (w : World P) (a : Action P) : Prop := keepsAlignment w a = true

instance : ∀ (w : World P) (a : Action P), Decidable (KeepsAlignment w a) := fun w a =>
  inferInstanceAs (Decidable (keepsAlignment w a = true))

/-! ## one write -/

section

variable {chain : HonestChain P network}

/-- A rotation that goes with the header keeps the committees aligned. -/
theorem Aligned.rotate {s s' : State P} (hs : Aligned chain s) {c : Option (SyncCommitteeKeys P)}
    (hc : ∀ keys, c = some keys →
      keys = chain.committee (calculatePeriod s'.finalizedHeader.slot + 1))
    (hmoves : movesInStep s s'.finalizedHeader c.isSome = true)
    (hcurrent : s'.syncCommitteeCurrent =
      if c.isSome then s.syncCommitteeNext else s.syncCommitteeCurrent)
    (hnext : s'.syncCommitteeNext = c.getD s.syncCommitteeNext) : Aligned chain s' := by
  have hperiod := beq_iff_eq.mp hmoves
  cases c with
  | none =>
      simp only [Option.isSome_none, Bool.false_eq_true, if_false, Bool.toNat_false,
        Nat.add_zero, Option.getD_none] at hcurrent hnext hperiod
      constructor
      · rw [hcurrent, hs.current, HonestChain.committeeAt, HonestChain.committeeAt, hperiod]
      · rw [hnext, hs.next, hperiod]
  | some keys =>
      simp only [Option.isSome_some, if_true, Bool.toNat_true, Option.getD_some] at hcurrent hnext hperiod
      constructor
      · rw [hcurrent, hs.next, HonestChain.committeeAt, hperiod]
      · rw [hnext]
        exact hc keys rfl

/-- The committee a replay-back will rotate to is the one after its finalized header. -/
def ReplayAligned (chain : HonestChain P network) (r : ReplayBackState P) : Prop :=
  ∀ keys, r.syncCommitteeNext = some keys →
    keys = chain.committee (calculatePeriod r.finalizedHeader.slot + 1)

theorem Aligned.processHeaders {s : State P} (hs : Aligned chain s) {r : ReplayBackState P}
    (hr : ReplayAligned chain r) {popped : List (Header P)}
    (hok : (movesInStep s r.finalizedHeader r.syncCommitteeNext.isSome ||
      !decide (Joins s.checkpoints.last r.lastHeader popped)) = true) :
    Aligned chain (processHeaders s r popped).1 ∧
    ∀ r', (processHeaders s r popped).1.replayBack = some r' → ReplayAligned chain r' := by
  have hr' : ReplayAligned chain (replayHeaders s.checkpoints.last r popped) := by
    unfold ReplayAligned
    rw [replayHeaders_syncCommitteeNext, replayHeaders_finalizedHeader]
    exact hr
  cases processHeaders_cases s r popped with
  | inl h =>
      obtain ⟨hjoins, h⟩ := h
      have hmoves : movesInStep s r.finalizedHeader r.syncCommitteeNext.isSome = true := by
        simpa [hjoins] using hok
      rw [h]
      refine ⟨hs.rotate hr' ?_ rfl rfl, by simp [State.finishReplayBack]⟩
      simpa [State.finishReplayBack] using hmoves
  | inr h =>
      rw [h.2]
      refine ⟨⟨hs.current, hs.next⟩, ?_⟩
      intro r' heq
      cases heq
      exact hr'

/-! ## runs -/

structure AlignInv (chain : HonestChain P network) (w : World P) : Prop where
  network_eq : w.state.network = network
  aligned : Aligned chain w.state
  snapshots : chain.GenuineSnapshots w
  replayBack : ∀ r, w.state.replayBack = some r → ReplayAligned chain r

theorem processHeaders_network (s : State P) (r : ReplayBackState P) (popped : List (Header P)) :
    (processHeaders s r popped).1.network = s.network := by
  cases processHeaders_cases s r popped with
  | inl h => rw [h.2]; rfl
  | inr h => rw [h.2]

theorem AlignInv.step {w w' : World P} {a : Action P} (h : AlignInv chain w)
    (hok : KeepsAlignment w a) (hstep : step w a = some w') : AlignInv chain w' := by
  cases step_effect hstep with
  | suspended p hsnapshot =>
      exact { h with
        snapshots := h.snapshots.suspend hsnapshot h.network_eq ⟨_, h.aligned.current⟩
          ⟨_, h.aligned.next⟩ }
  | unchanged pending hpending => exact { h with snapshots := h.snapshots.of_subset hpending }
  | updated p f c hp hcall hverify =>
      obtain ⟨rfl, _, hrotates, hc⟩ := h.snapshots.verify hp hverify
      simp only [KeepsAlignment, keepsAlignment, hp, hcall, hverify] at hok
      rw [← hrotates] at hok
      exact { h with
        aligned := h.aligned.rotate hc hok rfl rfl
        snapshots := h.snapshots.of_subset List.eraseIdx_subset }
  | started p f c headers hp hcall hverify =>
      obtain ⟨hf, _, hrotates, hc⟩ := h.snapshots.verify hp hverify
      cases hf
      simp only [KeepsAlignment, keepsAlignment, hp, hcall, hverify] at hok
      rw [← hrotates] at hok
      have hs : Aligned chain
          { w.state with replayBack := some (.new p.update.finalizedHeader c) } :=
        ⟨h.aligned.current, h.aligned.next⟩
      obtain ⟨haligned, hreplay⟩ := hs.processHeaders (r := .new p.update.finalizedHeader c) hc hok
      exact ⟨(processHeaders_network _ _ _).trans h.network_eq, haligned,
        h.snapshots.of_subset List.eraseIdx_subset, hreplay⟩
  | replayed r hr =>
      simp only [KeepsAlignment, keepsAlignment, hr] at hok
      obtain ⟨haligned, hreplay⟩ := h.aligned.processHeaders (h.replayBack r hr) hok
      exact ⟨(processHeaders_network _ _ _).trans h.network_eq, haligned, h.snapshots, hreplay⟩

/-- **Sync-committee alignment**: in every run from an `init` at a block of the chain in
which headers and committees are written together, the committees are those of the
period of the finalized header and of the one after it. -/
theorem aligned_of_reachable (chain : HonestChain P network) {arg : Init P} {s : State P}
    (hnetwork : arg.network = network)
    (hblock : ∃ n, arg.update.finalizedHeader = chain.block n) (hinit : init arg = some s)
    {w : World P} (h : Reachable step KeepsAlignment (StartsAt s) w) :
    Aligned chain w.state := by
  have hinv : AlignInv chain w := by
    refine Reachable.invariant (I := AlignInv chain) ?_
      (fun _ _ _ hI hok hstep => hI.step hok hstep) h
    intro w hw
    subst hw
    obtain ⟨n, hblock⟩ := hblock
    obtain ⟨hn, _, hcurrent, hnext, _, hreplay⟩ := chain.init_block hnetwork hblock hinit
    refine ⟨hn, ⟨hcurrent, hnext⟩, by simp [HonestChain.GenuineSnapshots], ?_⟩
    simp [hreplay]
  exact hinv.aligned

end

/-- The boundary of a period is crossed with the committee. -/
theorem aligned_of_reachable_ledger : ∃ w,
    Reachable step KeepsAlignment (StartsAt ledgerStart) w ∧
      w.state.finalizedHeader.slot = 81920 ∧ Aligned ledgerChain w.state := by
  obtain ⟨w, h, hslot⟩ := exists_reachable_of_exec step KeepsAlignment
    (show StartsAt ledgerStart ⟨ledgerStart, []⟩ from rfl)
    [.process (ledgerUpdate 3 true) ledgerBits, .finish 0 []]
    (fun w => decide (w.state.finalizedHeader.slot = 81920)) (by rw [ledgerStart_eq]; decide +kernel)
  exact ⟨w, h, of_decide_eq_true hslot,
    aligned_of_reachable ledgerChain rfl ⟨0, rfl⟩ init_ledgerInit h⟩

/-- The first finality update of period 10 comes without the next committee: the header
moves into period 10, the current committee stays that of period 9. -/
theorem lagging : init ledgerInit = some ledgerStart ∧
    (∃ n, ledgerInit.update.finalizedHeader = ledgerChain.block n) ∧
    ∃ w, Reachable step free (StartsAt ledgerStart) w ∧ ¬ Aligned ledgerChain w.state := by
  refine ⟨init_ledgerInit, ⟨0, rfl⟩, ?_⟩
  obtain ⟨w, h, hw⟩ := exists_reachable_of_exec step free
    (show StartsAt ledgerStart ⟨ledgerStart, []⟩ from rfl)
    [.process (ledgerUpdate 3 false) ledgerBits, .finish 0 []]
    (fun w => decide (w.state.syncCommitteeCurrent.val ≠
      (ledgerChain.committeeAt w.state.finalizedHeader.slot).val)) (by rw [ledgerStart_eq]; decide +kernel)
  refine ⟨w, h, ?_⟩
  intro haligned
  exact of_decide_eq_true hw (congrArg Subtype.val haligned.current)

end GearBridges.CheckpointLightClient
