import GearBridges.CheckpointLightClient.HonestChain

/-!
# CheckpointLightClient.Monotone

The order of the checkpoints.  `SyncUpdate::process` compares the slot of an update with
the finalized slot before it waits for the BLS builtin and writes after it, so an update
that is resumed late puts an older header behind a newer one (`overtaken`).  As long as
every resumed update is still newer than the stored header, and replayed headers are newer
than their parents, the finalized slot never falls and the checkpoints rise
(`checkpoints_rising`).
-/

namespace GearBridges.CheckpointLightClient

open EthereumCommon Transition

variable {P : Primitives}

/-! ## rising checkpoints -/

/-- Slots rise from the oldest checkpoint to the newest. -/
def Checkpoints.Rising (cs : Checkpoints P) : Prop :=
  cs.entries.Pairwise fun a b => a.1 < b.1

namespace Checkpoints

theorem rising_singleton (c : Checkpoint P) : (singleton c).Rising := List.pairwise_singleton _ _

theorem rising_push {cs : Checkpoints P} {c : Checkpoint P} (hcs : cs.Rising)
    (hc : ∀ x ∈ cs.entries, x.1 < c.1) : (cs.push c).Rising := by
  refine List.Pairwise.drop ?_
  rw [List.pairwise_append]
  refine ⟨hcs, List.pairwise_singleton _ _, ?_⟩
  intro x hx y hy
  rw [List.mem_singleton.mp hy]
  exact hc x hx

/-- The newest checkpoint has the largest slot. -/
theorem Rising.le_last {cs : Checkpoints P} (hcs : cs.Rising) {c : Checkpoint P}
    (hc : c ∈ cs.entries) : c.1 ≤ cs.last.1 := by
  have hsplit := List.dropLast_append_getLast cs.nonempty
  rw [← hsplit, List.mem_append, List.mem_singleton] at hc
  rcases hc with hc | rfl
  · unfold Rising at hcs
    rw [← hsplit, List.pairwise_append] at hcs
    exact Nat.le_of_lt (hcs.2.2 c hc _ (List.mem_singleton_self _))
  · exact Nat.le_refl _

/-- There is room for the newest checkpoint and the one before it. -/
theorem last_lt_of_rising_push {cs : Checkpoints P} {c : Checkpoint P} (h : (cs.push c).Rising) :
    cs.last.1 < c.1 := by
  have hcapacity : 1 < storedCheckpointsCount := by
    unfold storedCheckpointsCount
    omega
  have hpos := List.length_pos_of_ne_nil cs.nonempty
  have hsplit := List.dropLast_append_getLast cs.nonempty
  unfold Rising push pushBack at h
  simp only at h
  rw [← hsplit, List.append_assoc, List.drop_append_of_le_length (by simp; omega),
    List.pairwise_append] at h
  exact List.rel_of_pairwise_cons h.2.1 (List.mem_singleton_self c)

/-- Checkpoints collected downwards are moved behind older ones. -/
theorem Rising.pushAll {onto cs : Checkpoints P} (honto : onto.Rising)
    (hcs : cs.entries.Pairwise fun a b => b.1 < a.1)
    (habove : ∀ c ∈ cs.entries, onto.last.1 < c.1) : (onto.pushAll cs).Rising := by
  obtain ⟨entries, nonempty⟩ := cs
  unfold Checkpoints.pushAll
  simp only at hcs habove ⊢
  clear nonempty
  induction entries with
  | nil => exact honto
  | cons c entries ih =>
      rw [List.pairwise_cons] at hcs
      rw [List.foldr_cons]
      refine rising_push (ih hcs.2 fun x hx => habove x (List.mem_cons_of_mem _ hx)) ?_
      intro x hx
      rcases mem_foldr_push hx with hx | hx
      · exact Nat.lt_of_le_of_lt (honto.le_last hx) (habove c List.mem_cons_self)
      · exact hcs.1 x hx

end Checkpoints

/-! ## replayed headers -/

/-- Every header that the loop of `process_headers` replays is older than the one it is
the parent of. -/
def descends (newest : Checkpoint P) : Header P → List (Header P) → Bool
  | _, [] => true
  | last, header :: popped =>
      if P.headerRoot header ≠ last.parentRoot then true
      else if P.checkpoint header = newest then true
      else decide (header.slot < last.slot) && descends newest header popped

/-- Parents are older than their children: the replayed headers, and the newest checkpoint
where it is reached. -/
def parentsOlder (newest : Checkpoint P) (last : Header P) (popped : List (Header P)) : Bool :=
  descends newest last popped &&
    (!decide (Joins newest last popped) || decide (newest.1 < (replayLast newest last popped).slot))

/-- The checkpoints of a replay-back fall from that of its finalized header down to its
last header. -/
structure ReplayBackState.Falling (r : ReplayBackState P) : Prop where
  falling : r.checkpoints.entries.Pairwise fun a b => b.1 < a.1
  above : ∀ c ∈ r.checkpoints.entries, r.lastHeader.slot ≤ c.1
  first : r.checkpoints.first = P.checkpoint r.finalizedHeader

theorem ReplayBackState.Falling.new (f : Header P) (c : Option (SyncCommitteeKeys P)) :
    (ReplayBackState.new f c).Falling := by
  refine ⟨List.pairwise_singleton _ _, ?_, rfl⟩
  intro x hx
  rw [List.mem_singleton.mp hx]
  exact Nat.le_refl _

theorem ReplayBackState.Falling.replay {r : ReplayBackState P} (hr : r.Falling) {header : Header P}
    (hslot : header.slot < r.lastHeader.slot) : (r.replay header).Falling := by
  have hlow : ∀ c ∈ r.checkpoints.entries, header.slot < c.1 := fun c hc =>
    Nat.lt_of_lt_of_le hslot (hr.above c hc)
  unfold ReplayBackState.replay
  split
  · constructor
    · refine List.pairwise_append.mpr ⟨hr.falling, List.pairwise_singleton _ _, ?_⟩
      intro c hc x hx
      rw [List.mem_singleton.mp hx]
      exact hlow c hc
    · intro c hc
      rcases List.mem_append.mp hc with hc | hc
      · exact Nat.le_of_lt (hlow c hc)
      · rw [List.mem_singleton.mp hc]
        exact Nat.le_refl _
    · exact (Checkpoints.first_concat _ _).trans hr.first
  · exact ⟨hr.falling, fun c hc => Nat.le_of_lt (hlow c hc), hr.first⟩

theorem replayHeaders_falling {newest : Checkpoint P} {r : ReplayBackState P} (hr : r.Falling)
    {popped : List (Header P)} (h : descends newest r.lastHeader popped = true) :
    (replayHeaders newest r popped).Falling := by
  induction popped generalizing r with
  | nil => exact hr
  | cons header popped ih =>
      unfold replayHeaders
      unfold descends at h
      split
      · exact hr
      · next hlink =>
          rw [if_neg hlink] at h
          split
          · exact hr
          · next hnewest =>
              rw [if_neg hnewest, Bool.and_eq_true, decide_eq_true_eq] at h
              exact ih (hr.replay h.1) h.2

/-! ## ordered states -/

/-- The checkpoints rise up to that of the finalized header. -/
structure Ordered (s : State P) : Prop where
  rising : s.checkpoints.Rising
  newest : s.checkpoints.last = P.checkpoint s.finalizedHeader
  replay : ∀ r, s.replayBack = some r → r.Falling

theorem Ordered.lt_of_lt {s : State P} (hs : Ordered s) {slot : Slot}
    (h : s.finalizedHeader.slot < slot) {c : Checkpoint P} (hc : c ∈ s.checkpoints.entries) :
    c.1 < slot := by
  have hle := hs.rising.le_last hc
  rw [hs.newest] at hle
  exact Nat.lt_of_le_of_lt hle h

theorem Ordered.applyUpdate {s : State P} (hs : Ordered s) {h : Header P}
    (hslot : s.finalizedHeader.slot < h.slot) (c : Option (SyncCommitteeKeys P)) :
    Ordered (s.applyUpdate (some h) c) where
  rising := Checkpoints.rising_push hs.rising fun _ hx => hs.lt_of_lt hslot hx
  newest := Checkpoints.last_push _ _
  replay := hs.replay

/-- An update that is not newer than the stored header breaks the order. -/
theorem Ordered.slot_of_applyUpdate {s : State P} (hs : Ordered s) {h : Header P}
    {c : Option (SyncCommitteeKeys P)}
    (hrising : (s.applyUpdate (some h) c).checkpoints.Rising) :
    s.finalizedHeader.slot < h.slot := by
  have hlt := Checkpoints.last_lt_of_rising_push hrising
  rw [hs.newest] at hlt
  exact hlt

/-- Where the newest checkpoint is reached, everything that was replayed is above it. -/
theorem replayHeaders_above {newest : Checkpoint P} {r : ReplayBackState P} (hr : r.Falling)
    {popped : List (Header P)} (holder : parentsOlder newest r.lastHeader popped = true)
    (hjoins : Joins newest r.lastHeader popped) :
    ∀ c ∈ (replayHeaders newest r popped).checkpoints.entries, newest.1 < c.1 := by
  simp only [parentsOlder, Bool.and_eq_true] at holder
  have hlast : newest.1 < (replayLast newest r.lastHeader popped).slot := by
    simpa [hjoins] using holder.2
  rw [← replayHeaders_lastHeader] at hlast
  intro c hc
  exact Nat.lt_of_lt_of_le hlast ((replayHeaders_falling hr holder.1).above c hc)

theorem descends_of_parentsOlder {newest : Checkpoint P} {last : Header P} {popped : List (Header P)}
    (h : parentsOlder newest last popped = true) : descends newest last popped = true := by
  simp only [parentsOlder, Bool.and_eq_true] at h
  exact h.1

/-- **One call of `process_headers`** keeps the order and does not lower the finalized
slot, if parents are older than their children. -/
theorem Ordered.processHeaders {s : State P} (hs : Ordered s) {r : ReplayBackState P}
    (hr : r.Falling) {popped : List (Header P)}
    (holder : parentsOlder s.checkpoints.last r.lastHeader popped = true) :
    Ordered (processHeaders s r popped).1 ∧
      s.finalizedHeader.slot ≤ (processHeaders s r popped).1.finalizedHeader.slot := by
  have hfalling := replayHeaders_falling hr (descends_of_parentsOlder holder)
  rcases processHeaders_cases s r popped with ⟨hjoins, heq⟩ | ⟨-, heq⟩
  · have habove := replayHeaders_above hr holder hjoins
    rw [heq]
    refine ⟨⟨hs.rising.pushAll hfalling.falling habove, ?_, ?_⟩, ?_⟩
    · exact (Checkpoints.last_pushAll _ _).trans hfalling.first
    · intro r' hr'
      contradiction
    · have hfirst : s.checkpoints.last.1 <
          (replayHeaders s.checkpoints.last r popped).checkpoints.first.1 :=
        habove _ (List.head_mem _)
      have hstored : s.checkpoints.last.1 = s.finalizedHeader.slot := congrArg Prod.fst hs.newest
      rw [hfalling.first, hstored] at hfirst
      exact Nat.le_of_lt hfirst
  · rw [heq]
    refine ⟨⟨hs.rising, hs.newest, ?_⟩, Nat.le_refl _⟩
    intro r' hr'
    cases hr'
    exact hfalling

/-! ## runs -/

/-- The steps that keep the order: an update that is resumed is still newer than the stored
header, and headers that are replayed are newer than their parents. -/
def inOrder (w : World P) : Action P → Bool
  | .finish i popped => match w.pending[i]? with
      | none => true
      | some p => !(p.snapshot.verify p.update p.bits).isOk || match p.call with
          | .process => decide (w.state.finalizedHeader.slot < p.update.finalizedHeader.slot)
          | .start _ => parentsOlder w.state.checkpoints.last p.update.finalizedHeader popped
  | .replay _ popped => match w.state.replayBack with
      | none => true
      | some r => parentsOlder w.state.checkpoints.last r.lastHeader popped
  | _ => true

/-- The guard `inOrder` as a relation between a world and the next action. -/
def InOrder (w : World P) (a : Action P) : Prop := inOrder w a = true

instance : ∀ (w : World P) (a : Action P), Decidable (InOrder w a) := fun w a =>
  inferInstanceAs (Decidable (inOrder w a = true))

/-- **One step** keeps the order and does not lower the finalized slot. -/
theorem Ordered.step {w w' : World P} {a : Action P} (hw : Ordered w.state) (hok : InOrder w a)
    (h : step w a = some w') :
    Ordered w'.state ∧ w.state.finalizedHeader.slot ≤ w'.state.finalizedHeader.slot := by
  unfold InOrder inOrder at hok
  cases step_effect h with
  | suspended p hsnapshot => exact ⟨hw, Nat.le_refl _⟩
  | unchanged pending hpending => exact ⟨hw, Nat.le_refl _⟩
  | updated p f c hp hcall hverify =>
      obtain ⟨rfl, -, -⟩ := verify_finalized hverify
      simp only [hp, hverify, Except.isOk, Except.toBool, hcall, Bool.not_true, Bool.false_or,
        decide_eq_true_eq] at hok
      exact ⟨hw.applyUpdate hok c, Nat.le_of_lt hok⟩
  | started p f c headers hp hcall hverify =>
      obtain ⟨hf, -, -⟩ := verify_finalized hverify
      cases hf
      simp only [hp, hverify, Except.isOk, Except.toBool, hcall, Bool.not_true,
        Bool.false_or] at hok
      have hopened : Ordered { w.state with replayBack := some (.new p.update.finalizedHeader c) } :=
        ⟨hw.rising, hw.newest, fun r hr => Option.some.inj hr ▸ .new _ _⟩
      exact hopened.processHeaders (.new _ _) hok
  | replayed r hr =>
      simp only [hr] at hok
      exact hw.processHeaders (hw.replay r hr) hok

theorem ordered_init {arg : Init P} {s : State P} (h : init arg = some s) : Ordered s := by
  unfold init at h
  split at h
  · split at h
    · split at h
      · contradiction
      · split at h
        · cases h
          exact ⟨Checkpoints.rising_singleton _, rfl, fun r hr => by contradiction⟩
        · contradiction
    · contradiction
  · contradiction

theorem ordered_of_reachable (w₀ : World P) {w : World P} (h₀ : Ordered w₀.state)
    (h : Reachable step InOrder (· = w₀) w) :
    Ordered w.state ∧ w₀.state.finalizedHeader.slot ≤ w.state.finalizedHeader.slot := by
  refine Reachable.invariant (I := fun w => Ordered w.state ∧
    w₀.state.finalizedHeader.slot ≤ w.state.finalizedHeader.slot) ?_ ?_ h
  · rintro s rfl
    exact ⟨h₀, Nat.le_refl _⟩
  · rintro s a s' ⟨hs, hle⟩ hok hstep
    obtain ⟨hs', hle'⟩ := hs.step hok hstep
    exact ⟨hs', Nat.le_trans hle hle'⟩

/-- **The finalized slot never falls and the checkpoints rise**, in every run whose steps
are in order.  For an update that is resumed and verifies, being in order is also
necessary: the checkpoints rise after it exactly when it is still newer than the stored
header. -/
theorem checkpoints_rising (arg : Init P) (s₀ : State P) (hinit : init arg = some s₀) (w : World P)
    (hw : Reachable step InOrder (StartsAt s₀) w) :
    w.state.checkpoints.entries.Pairwise (fun a b => a.1 < b.1) ∧
    (∀ w', Reachable step InOrder (· = w) w' →
      w.state.finalizedHeader.slot ≤ w'.state.finalizedHeader.slot) ∧
    ∀ i popped p w', w.pending[i]? = some p → p.call = .process →
      (p.snapshot.verify p.update p.bits).isOk = true → step w (.finish i popped) = some w' →
      (w'.state.checkpoints.entries.Pairwise (fun a b => a.1 < b.1) ↔
        w.state.finalizedHeader.slot < p.update.finalizedHeader.slot) := by
  have hordered := (ordered_of_reachable ⟨s₀, []⟩ (ordered_init hinit) hw).1
  refine ⟨hordered.rising, fun w' hw' => (ordered_of_reachable w hordered hw').2, ?_⟩
  intro i popped p w' hp hcall hok hstep
  cases hverify : p.snapshot.verify p.update p.bits with
  | error e =>
      rw [hverify] at hok
      contradiction
  | ok res =>
      obtain ⟨f, c⟩ := res
      obtain ⟨rfl, -, -⟩ := verify_finalized hverify
      simp only [CheckpointLightClient.step, hp, hcall, finishProcess, hverify, World.settle,
        Option.some.injEq] at hstep
      subst hstep
      exact ⟨fun hrising => hordered.slot_of_applyUpdate hrising,
        fun hslot => (hordered.applyUpdate hslot c).rising⟩

open Digest in
/-- Two updates that are resumed in the order of their slots. -/
theorem checkpoints_rising_ledger : ∃ w, Reachable step InOrder (StartsAt ledgerStart) w ∧
    w.state.finalizedHeader.slot = 81920 ∧ w.state.checkpoints.entries.length = 3 ∧
    w.state.checkpoints.entries.Pairwise (fun a b => a.1 < b.1) := by
  obtain ⟨w, h, hw⟩ := exists_reachable_of_exec step InOrder
    (show StartsAt ledgerStart ⟨ledgerStart, []⟩ from rfl)
    [.process (ledgerUpdate 3 true) ledgerBits, .process (ledgerUpdate 2 false) ledgerBits,
      .finish 1 [], .finish 0 []]
    (fun w => decide (w.state.finalizedHeader.slot = 81920 ∧
      w.state.checkpoints.entries.length = 3)) (by rw [ledgerStart_eq]; decide +kernel)
  obtain ⟨hslot, hlength⟩ := of_decide_eq_true hw
  exact ⟨w, h, hslot, hlength, (checkpoints_rising ledgerInit ledgerStart init_ledgerInit w h).1⟩

open Digest in
/-- The same two updates, resumed the other way round: the finalized slot falls from
`81920` to `81889` and the newest checkpoint is older than the one before it. -/
theorem overtaken : init ledgerInit = some ledgerStart ∧
    ∃ w w', Reachable step free (StartsAt ledgerStart) w ∧ Reachable step free (· = w) w' ∧
      w.state.finalizedHeader.slot = 81920 ∧ w'.state.finalizedHeader.slot = 81889 ∧
      ¬ w'.state.checkpoints.entries.Pairwise (fun a b => a.1 < b.1) := by
  refine ⟨init_ledgerInit, ?_⟩
  obtain ⟨w, h, hw⟩ := exists_reachable_of_exec step free
    (show StartsAt ledgerStart ⟨ledgerStart, []⟩ from rfl)
    [.process (ledgerUpdate 3 true) ledgerBits, .process (ledgerUpdate 2 false) ledgerBits,
      .finish 0 []]
    (fun w => decide (w.state.finalizedHeader.slot = 81920) &&
      (exec step free w [.finish 0 []]).any fun w' : World ledgerPrimitives =>
        decide (w'.state.finalizedHeader.slot = 81889 ∧ ¬ w'.state.checkpoints.entries.Pairwise
          fun a b : Checkpoint ledgerPrimitives => a.1 < b.1)) (by rw [ledgerStart_eq]; decide +kernel)
  simp only [Bool.and_eq_true, decide_eq_true_eq, Option.any_eq_true] at hw
  obtain ⟨hslot, w', hexec, hslot', hfalls⟩ := hw
  exact ⟨w, w', h, .of_exec (.start rfl) hexec, hslot, hslot', hfalls⟩

end GearBridges.CheckpointLightClient
