import GearBridges.CheckpointLightClient.Batching
import GearBridges.CheckpointLightClient.CheckpointFor

/-!
# CheckpointLightClient.Covering

The checkpoints a replay-back leaves.  Not every replayed header becomes one, but a header
that does not lies at most an epoch below the one taken last, which is its descendant.
So whatever slots are missed, and however the headers are cut into batches, the checkpoint
that covers the slot of a replayed header is close to it (`replayBack_covers`).
-/

namespace GearBridges.CheckpointLightClient

open EthereumCommon BinarySearch

variable {P : Primitives}

/-! ## replayed headers -/

/-- The headers that the loop of `process_headers` makes the last one. -/
def replayedHeaders (newest : Checkpoint P) : Header P → List (Header P) → List (Header P)
  | _, [] => []
  | last, header :: popped =>
      if P.headerRoot header ≠ last.parentRoot then []
      else if P.checkpoint header = newest then []
      else header :: replayedHeaders newest header popped

/-- Those of several calls, up to the one that finishes. -/
def replayedInBatches (newest : Checkpoint P) : Header P → List (List (Header P)) → List (Header P)
  | _, [] => []
  | last, popped :: rest =>
      if Joins newest last popped then replayedHeaders newest last popped
      else replayedHeaders newest last popped ++
        replayedInBatches newest (replayLast newest last popped) rest

theorem replayHeaders_eq_foldl (newest : Checkpoint P) (r : ReplayBackState P)
    (popped : List (Header P)) : replayHeaders newest r popped =
      (replayedHeaders newest r.lastHeader popped).foldl ReplayBackState.replay r := by
  induction popped generalizing r with
  | nil => rfl
  | cons header popped ih =>
      unfold replayHeaders replayedHeaders
      split
      · rfl
      · split
        · rfl
        · exact ih (r.replay header)

theorem replayLast_mem (newest : Checkpoint P) (last : Header P) (popped : List (Header P)) :
    replayLast newest last popped ∈ last :: popped := by
  induction popped generalizing last with
  | nil => exact List.mem_singleton_self last
  | cons header popped ih =>
      unfold replayLast
      split
      · exact List.mem_cons_self
      · split
        · exact List.mem_cons_self
        · exact List.mem_cons_of_mem _ (ih header)

/-- Of these headers, each has a greater slot than its parent. -/
def ParentsOlder (headers : List (Header P)) : Prop :=
  ∀ h ∈ headers, ∀ h' ∈ headers, P.headerRoot h' = h.parentRoot → h'.slot < h.slot

theorem ParentsOlder.mono {headers headers' : List (Header P)} (h : ParentsOlder headers)
    (hsub : headers' ⊆ headers) : ParentsOlder headers' :=
  fun a ha b hb => h a (hsub ha) b (hsub hb)

/-- One call leads a chain on. -/
theorem Spans.replayedHeaders {c last : Header P} {newest : Checkpoint P}
    {popped rest : List (Header P)} (holder : ParentsOlder (last :: popped))
    (h : Spans c (replayLast newest last popped) rest) :
    Spans c last (CheckpointLightClient.replayedHeaders newest last popped ++ rest) := by
  induction popped generalizing last with
  | nil => exact h
  | cons header popped ih =>
      unfold CheckpointLightClient.replayedHeaders
      unfold replayLast at h
      split
      · next hlink =>
        rw [if_pos hlink] at h
        exact h
      · next hlink =>
        rw [if_neg hlink] at h
        split
        · next hnewest =>
          rw [if_pos hnewest] at h
          exact h
        · next hnewest =>
          rw [if_neg hnewest] at h
          have hlink := not_not.mp hlink
          refine .cons hlink ?_ (ih (holder.mono (List.subset_cons_self _ _)) h)
          exact holder last List.mem_cons_self header (by simp) hlink

/-- Calls that finish a replay-back have replayed it down to the newest checkpoint. -/
theorem processAll_finished {s : State P} {r : ReplayBackState P} (hr : s.replayBack = some r)
    {c : Header P} (hnewest : s.checkpoints.last = P.checkpoint c)
    {batches : List (List (Header P))} (holder : ParentsOlder (c :: r.lastHeader :: batches.flatten))
    (h : (s.processAll batches).replayBack = none) :
    s.processAll batches = s.finishReplayBack
      ((replayedInBatches s.checkpoints.last r.lastHeader batches).foldl ReplayBackState.replay r) ∧
    Spans c r.lastHeader (replayedInBatches s.checkpoints.last r.lastHeader batches) := by
  induction batches generalizing s r with
  | nil =>
      rw [State.processAll, hr] at h
      contradiction
  | cons popped rest ih =>
      have hreplay : processReplayBack s popped = .ok (processHeaders s r popped) := by
        simp only [processReplayBack, hr]
      have hunfold : s.processAll (popped :: rest) =
          (processHeaders s r popped).1.processAll rest := by
        simp only [State.processAll, hreplay]
      rw [hunfold] at h ⊢
      rw [List.flatten_cons] at holder
      have hbatch : ParentsOlder (r.lastHeader :: popped) := by
        apply holder.mono
        intro x hx
        simp only [List.mem_cons, List.mem_append] at hx ⊢
        tauto
      rw [replayedInBatches]
      rcases processHeaders_cases s r popped with ⟨hjoins, heq⟩ | ⟨hjoins, heq⟩
      · rw [heq, if_pos hjoins, ← replayHeaders_eq_foldl]
        refine ⟨processAll_of_none rfl rest, ?_⟩
        have hlink : P.headerRoot c = (replayLast s.checkpoints.last r.lastHeader popped).parentRoot := by
          rw [show (replayLast s.checkpoints.last r.lastHeader popped).parentRoot = _ from hjoins,
            hnewest]
          rfl
        have hmem := replayLast_mem s.checkpoints.last r.lastHeader popped
        have hend : Spans c (replayLast s.checkpoints.last r.lastHeader popped) [] := by
          refine .nil hlink (holder _ ?_ c List.mem_cons_self hlink)
          simp only [List.mem_cons, List.mem_append] at hmem ⊢
          tauto
        have hspans := hend.replayedHeaders hbatch
        rw [List.append_nil] at hspans
        exact hspans
      · rw [heq] at h ⊢
        rw [if_neg hjoins, List.foldl_append, ← replayHeaders_eq_foldl]
        have hlast := replayHeaders_lastHeader s.checkpoints.last r popped
        have hmem := replayLast_mem s.checkpoints.last r.lastHeader popped
        have hrest : ParentsOlder (c :: (replayHeaders s.checkpoints.last r popped).lastHeader ::
            rest.flatten) := by
          apply holder.mono
          intro x hx
          rw [hlast] at hx
          simp only [List.mem_cons, List.mem_append] at hx hmem ⊢
          rcases hx with hx | rfl | hx <;> tauto
        obtain ⟨hfinish, hspans⟩ := ih (s := { s with replayBack := some _ }) rfl hnewest hrest h
        rw [hlast] at hfinish hspans
        exact ⟨hfinish, hspans.replayedHeaders hbatch⟩

/-! ## covered slots -/

/-- Every replayed header has a descendant, at most an epoch above it, whose checkpoint
covers its slot; the lowest checkpoint is of a descendant of the last header. -/
structure Covered (r : ReplayBackState P) (replayed : List (Header P)) : Prop where
  falling : r.Falling
  lowest : ∃ d, r.checkpoints.last = P.checkpoint d ∧ Linked d r.lastHeader
  above : ∀ h ∈ replayed, r.lastHeader.slot ≤ h.slot
  covers : ∀ h ∈ replayed, ∃ d, Linked d h ∧ d.slot ≤ h.slot + slotsPerEpoch ∧
    Covers r.checkpoints.entries h.slot (P.checkpoint d)

theorem Covered.new (f : Header P) (committee : Option (SyncCommitteeKeys P)) :
    Covered (.new f committee) [f] := by
  refine ⟨.new f committee, ⟨f, rfl, .refl⟩, ?_, ?_⟩
  · intro h hh
    rw [List.mem_singleton.mp hh]
    exact Nat.le_refl _
  · intro h hh
    rw [List.mem_singleton.mp hh]
    refine ⟨f, .refl, Nat.le_add_right _ _, List.mem_singleton_self _, Nat.le_refl _, ?_⟩
    intro x hx _
    rw [List.mem_singleton.mp hx]

/-- The lowest checkpoint is the last one taken. -/
theorem ReplayBackState.Falling.last_le {r : ReplayBackState P} (hr : r.Falling) {x : Checkpoint P}
    (hx : x ∈ r.checkpoints.entries) : r.checkpoints.last.1 ≤ x.1 := by
  have : Std.Refl fun a b : Checkpoint P => b.1 ≤ a.1 := ⟨fun _ => Nat.le_refl _⟩
  exact (hr.falling.imp Nat.le_of_lt).rel_getLast hx

/-- **One more header**: it becomes a checkpoint, or the lowest one is an epoch above it at
most. -/
theorem Covered.replay {r : ReplayBackState P} {replayed : List (Header P)}
    (hr : Covered r replayed) {header : Header P}
    (hlink : P.headerRoot header = r.lastHeader.parentRoot)
    (hslot : header.slot < r.lastHeader.slot) :
    Covered (r.replay header) (replayed ++ [header]) := by
  have habove : ∀ h ∈ replayed ++ [header], header.slot ≤ h.slot := by
    intro h hh
    rcases List.mem_append.mp hh with hh | hh
    · exact Nat.le_of_lt (Nat.lt_of_lt_of_le hslot (hr.above h hh))
    · rw [List.mem_singleton.mp hh]
  have hfalling := hr.falling.replay hslot
  obtain ⟨d, hd, hlinked⟩ := hr.lowest
  have hheader : Linked d header := .parent hlinked hlink
  by_cases htaken : header.slot % slotsPerEpoch = 0 ∨
      (header.slot + slotsPerEpoch) % 2 ^ 64 < r.checkpoints.last.1
  · have hcheckpoints : (r.replay header).checkpoints =
        r.checkpoints.concat (P.checkpoint header) := if_pos htaken
    refine ⟨hfalling, ⟨header, ?_, .refl⟩, habove, ?_⟩
    · rw [hcheckpoints]
      exact List.getLast_concat
    · rw [hcheckpoints]
      intro h hh
      rcases List.mem_append.mp hh with hh | hh
      · obtain ⟨d, hlinked, hle, hcovers⟩ := hr.covers h hh
        refine ⟨d, hlinked, hle, hcovers.of_below (List.mem_append_left _ hcovers.mem) ?_⟩
        intro x hx
        apply (List.mem_append.mp hx).imp_right
        intro hx
        -- the new checkpoint is below everything replayed before
        rw [List.mem_singleton.mp hx]
        exact Nat.lt_of_lt_of_le hslot (hr.above h hh)
      · rw [List.mem_singleton.mp hh]
        refine ⟨header, .refl, Nat.le_add_right _ _, List.mem_append_right _ ?_, Nat.le_refl _, ?_⟩
        · exact List.mem_singleton_self _
        · exact fun x _ hx => hx
  · have hcheckpoints : (r.replay header).checkpoints = r.checkpoints := if_neg htaken
    refine ⟨hfalling, ⟨d, ?_, hheader⟩, habove, ?_⟩
    · rw [hcheckpoints, hd]
    · rw [hcheckpoints]
      intro h hh
      rcases List.mem_append.mp hh with hh | hh
      · exact hr.covers h hh
      · rw [List.mem_singleton.mp hh]
        have hlast : r.checkpoints.last ∈ r.checkpoints.entries := List.getLast_mem _
        have hnear : r.checkpoints.last.1 ≤ header.slot + slotsPerEpoch := by
          have hmod := Nat.mod_le (header.slot + slotsPerEpoch) (2 ^ 64)
          rw [not_or, Nat.not_lt] at htaken
          exact Nat.le_trans htaken.2 hmod
        have hbelow := hr.falling.above _ hlast
        refine ⟨d, hheader, ?_, ?_, ?_, ?_⟩
        · rw [hd] at hnear
          exact hnear
        · rw [← hd]
          exact hlast
        · rw [← hd]
          exact Nat.le_trans (Nat.le_of_lt hslot) hbelow
        · intro x hx _
          rw [← hd]
          exact hr.falling.last_le hx

/-- A whole chain. -/
theorem Covered.foldl_replay {c : Header P} {chain : List (Header P)} {r : ReplayBackState P}
    {replayed : List (Header P)} (hr : Covered r replayed) (hspans : Spans c r.lastHeader chain) :
    Covered (chain.foldl ReplayBackState.replay r) (replayed ++ chain) ∧
      c.slot < (chain.foldl ReplayBackState.replay r).lastHeader.slot := by
  induction chain generalizing r replayed with
  | nil =>
      rw [List.append_nil]
      exact ⟨hr, hspans.slot_lt.1⟩
  | cons h chain ih =>
      cases hspans with
      | cons link slot hspans =>
          rw [← List.singleton_append, ← List.append_assoc]
          exact ih (hr.replay link slot) hspans

/-! ## the stored checkpoints -/

/-- Checkpoints that a finished replay-back of `f` in batches adds, the oldest first. -/
def newCheckpoints (newest : Checkpoint P) (f : Header P) (batches : List (List (Header P))) :
    List (Checkpoint P) :=
  ((replayedInBatches newest f batches).foldl ReplayBackState.replay
    (.new f none)).checkpoints.entries.reverse

/-- The committee of the update makes no difference to the checkpoints. -/
theorem foldl_replay_new (f : Header P) (committee : Option (SyncCommitteeKeys P))
    (chain : List (Header P)) :
    (chain.foldl ReplayBackState.replay (.new f committee)).checkpoints =
      (chain.foldl ReplayBackState.replay (.new f none)).checkpoints := by
  have hkeep : ∀ r r' : ReplayBackState P, r.checkpoints = r'.checkpoints →
      (chain.foldl ReplayBackState.replay r).checkpoints =
        (chain.foldl ReplayBackState.replay r').checkpoints := by
    induction chain with
    | nil => exact fun r r' h => h
    | cons header chain ih =>
        intro r r' h
        refine ih _ _ ?_
        simp only [ReplayBackState.replay, h]
  exact hkeep _ _ rfl

/-- What a finished replay-back pushes. -/
theorem exists_covered {s : State P} {p : Pending P} {f c : Header P}
    {committee : Option (SyncCommitteeKeys P)} {batches : List (List (Header P))}
    (hnewest : s.checkpoints.last = P.checkpoint c)
    (hverify : p.snapshot.verify p.update p.bits = .ok (some f, committee))
    (holder : ParentsOlder (c :: f :: batches.flatten)) (hsome : batches ≠ [])
    (hfinished : (s.replayInBatches p batches).replayBack = none) :
    ∃ r : ReplayBackState P,
      newCheckpoints s.checkpoints.last f batches = r.checkpoints.entries.reverse ∧
      (s.replayInBatches p batches).checkpoints = s.checkpoints.pushAll r.checkpoints ∧
      r.finalizedHeader = f ∧ Covered r (f :: replayedInBatches s.checkpoints.last f batches) ∧
      c.slot < r.lastHeader.slot := by
  obtain ⟨popped, rest, rfl⟩ := List.exists_cons_of_ne_nil hsome
  have hstart : s.replayInBatches p (popped :: rest) =
      ({ s with replayBack := some (.new f committee) } : State P).processAll (popped :: rest) := by
    simp only [State.replayInBatches, finishStart, hverify, State.processAll, processReplayBack]
  have hsame : (ReplayBackState.new f committee).lastHeader = f := rfl
  rw [hstart] at hfinished
  obtain ⟨hfinish, hspans⟩ := processAll_finished (r := .new f committee) rfl
    (s := { s with replayBack := some (.new f committee) }) hnewest holder hfinished
  simp only [hsame] at hfinish hspans
  obtain ⟨hcovered, hlow⟩ := (Covered.new f committee).foldl_replay hspans
  refine ⟨_, ?_, ?_, ?_, hcovered, hlow⟩
  · rw [foldl_replay_new, newCheckpoints]
  · rw [hstart, hfinish]
    rfl
  · rw [foldl_replay_finalizedHeader]
    rfl

/-- **Every replayed block has a near covering checkpoint** after a replay-back: the new
checkpoints rise above the ones before up to the finalized header, and the one that is found
for the slot of a replayed header is of a descendant at most an epoch above it. -/
theorem replayBack_covers {s : State P} {p : Pending P} {f c : Header P}
    {committee : Option (SyncCommitteeKeys P)} {batches : List (List (Header P))}
    (hrising : s.checkpoints.Rising) (hnewest : s.checkpoints.last = P.checkpoint c)
    (hverify : p.snapshot.verify p.update p.bits = .ok (some f, committee))
    (holder : ParentsOlder (c :: f :: batches.flatten)) (hsome : batches ≠ [])
    (hfinished : (s.replayInBatches p batches).replayBack = none)
    (hfits : (newCheckpoints s.checkpoints.last f batches).length ≤ storedCheckpointsCount) :
    let appended := newCheckpoints s.checkpoints.last f batches
    let s' := s.replayInBatches p batches
    (∃ dropped, s'.checkpoints.entries = s.checkpoints.entries.drop dropped ++ appended) ∧
    (appended.Pairwise fun a b => a.1 < b.1) ∧ (∀ x ∈ appended, s.checkpoints.last.1 < x.1) ∧
    appended.getLast? = some (P.checkpoint f) ∧
    ∀ h ∈ f :: replayedInBatches s.checkpoints.last f batches, ∀ search split,
      ∃ d, Linked d h ∧ d.slot ≤ h.slot + slotsPerEpoch ∧
        s'.checkpoints.checkpoint search split h.slot = .ok (P.checkpoint d) := by
  intro appended s'
  obtain ⟨r, happended, hpushed, hfinalized, hcovered, hlow⟩ :=
    exists_covered hnewest hverify holder hsome hfinished
  have hentries : s'.checkpoints.entries = s.checkpoints.entries.drop
      (s.checkpoints.entries.length + r.checkpoints.entries.length - storedCheckpointsCount) ++
        appended := by
    have hroom : s.checkpoints.entries.length + r.checkpoints.entries.length -
        storedCheckpointsCount ≤ s.checkpoints.entries.length := by
      rw [happended, List.length_reverse] at hfits
      omega
    rw [hpushed, show appended = r.checkpoints.entries.reverse from happended,
      ← List.drop_append_of_le_length hroom]
    exact Checkpoints.entries_pushAll s.checkpoints r.checkpoints
  have hmem : ∀ x, x ∈ appended ↔ x ∈ r.checkpoints.entries := by
    intro x
    rw [show appended = r.checkpoints.entries.reverse from happended, List.mem_reverse]
  have hrises : appended.Pairwise fun a b => a.1 < b.1 := by
    rw [show appended = r.checkpoints.entries.reverse from happended, List.pairwise_reverse]
    exact hcovered.falling.falling
  have habove : ∀ x ∈ appended, s.checkpoints.last.1 < x.1 := by
    intro x hx
    rw [hnewest]
    exact Nat.lt_of_lt_of_le hlow (hcovered.falling.above x ((hmem x).mp hx))
  have hall : s'.checkpoints.Rising := by
    rw [hpushed]
    exact hrising.pushAll hcovered.falling.falling fun x hx => habove x ((hmem x).mpr hx)
  refine ⟨⟨_, hentries⟩, hrises, habove, ?_, ?_⟩
  · have hfirst : r.checkpoints.first = P.checkpoint r.finalizedHeader := hcovered.falling.first
    rw [hfinalized] at hfirst
    rw [show appended = r.checkpoints.entries.reverse from happended, List.getLast?_reverse,
      ← List.head_eq_iff_head?_eq_some r.checkpoints.nonempty]
    exact hfirst
  · intro h hh search split
    obtain ⟨d, hlinked, hnear, hcovers⟩ := hcovered.covers h hh
    refine ⟨d, hlinked, hnear, ?_⟩
    have hd : Covers s'.checkpoints.entries h.slot (P.checkpoint d) := by
      rw [hentries]
      apply hcovers.of_below (List.mem_append_right _ ((hmem _).mpr hcovers.mem))
      intro x hx
      cases List.mem_append.mp hx with
      | inl hx =>
          -- the checkpoints from before are below the replayed headers
          have hold := hrising.le_last (List.mem_of_mem_drop hx)
          rw [hnewest] at hold
          exact .inr (Nat.lt_of_le_of_lt hold (Nat.lt_of_lt_of_le hlow (hcovered.above h hh)))
      | inr hx => exact .inl ((hmem x).mp hx)
    rw [Checkpoints.checkpoint_eq hall, (covering_eq_some_iff hall).mpr hd]

/-- Two headers above block 0, each in its own batch: block 1 is covered. -/
theorem replayBack_covers_ledger : ∃ s' : State ledgerPrimitives, ∃ d,
    Linked d (Digest.ledgerBlock 1) ∧ d.slot ≤ (Digest.ledgerBlock 1).slot + slotsPerEpoch ∧
    s'.checkpoints.checkpoint stdSearch 0 (Digest.ledgerBlock 1).slot =
      .ok (ledgerPrimitives.checkpoint d) := by
  obtain ⟨committee, hverify⟩ := finalizes_iff.mp finalizes_ledgerPending
  have hrising : ledgerStart.checkpoints.Rising := (ordered_init init_ledgerInit).rising
  have hfew : (newCheckpoints ledgerStart.checkpoints.last (Digest.ledgerBlock 3)
      [[Digest.ledgerBlock 2, Digest.ledgerBlock 0], [Digest.ledgerBlock 1]]).length ≤ 3 := by
    rw [last_ledgerStart]
    decide +kernel
  have hfits := Nat.le_trans hfew (show 3 ≤ storedCheckpointsCount by
    unfold storedCheckpointsCount
    omega)
  have hfinished : (ledgerStart.replayInBatches ledgerPending
      [[Digest.ledgerBlock 2, Digest.ledgerBlock 0], [Digest.ledgerBlock 1]]).replayBack.isNone =
        true := by
    rw [ledgerPending, ledgerStart_eq]
    decide +kernel
  have holder : ParentsOlder (P := ledgerPrimitives) (Digest.ledgerBlock 0 :: Digest.ledgerBlock 3 ::
      [[Digest.ledgerBlock 2, Digest.ledgerBlock 0], [Digest.ledgerBlock 1]].flatten) := by
    unfold ParentsOlder
    decide +kernel
  have hcovers := replayBack_covers hrising last_ledgerStart hverify holder (by simp)
    (Option.isNone_iff_eq_none.mp hfinished) hfits
  obtain ⟨d, hd⟩ := hcovers.2.2.2.2 (Digest.ledgerBlock 1)
    (by rw [last_ledgerStart]; decide +kernel) stdSearch 0
  exact ⟨_, d, hd⟩

end GearBridges.CheckpointLightClient
