import GearBridges.CheckpointLightClient.HonestChain
import GearBridges.CheckpointLightClient.System

/-!
# CheckpointLightClient.Batching

A replay-back in several calls.  The headers between the newest checkpoint and the
finalized header may come in batches, the newest first, each in any order; what the
program ends up with does not depend on the cuts (`replayInBatches_eq`).  A batch of
anything else moves the last header along parent links at most
(`processHeaders_safe`).
-/

namespace GearBridges.CheckpointLightClient

open EthereumCommon

variable {P : Primitives}

/-! ## batches -/

/-- Calls of `ReplayBack::process` one after another, each by the order in which its headers
are popped.  A call that replies with an error changes nothing. -/
def State.processAll (s : State P) : List (List (Header P)) → State P
  | [] => s
  | popped :: rest =>
      match processReplayBack s popped with
      | .error _ => s.processAll rest
      | .ok (s', _) => s'.processAll rest

/-- `ReplayBack::start` with the first batch, `ReplayBack::process` with the others. -/
def State.replayInBatches (s : State P) (p : Pending P) : List (List (Header P)) → State P
  | [] => s
  | popped :: rest =>
      match finishStart s p popped with
      | .error _ => s
      | .ok (s', _) => s'.processAll rest

/-- The headers between `top` and the header `c` of a checkpoint, newest first: each is the
parent of the one before it and has a smaller slot. -/
inductive Spans (c : Header P) : Header P → List (Header P) → Prop
  | nil {top : Header P} (link : P.headerRoot c = top.parentRoot) (slot : c.slot < top.slot) :
      Spans c top []
  | cons {top h : Header P} {rest : List (Header P)} (link : P.headerRoot h = top.parentRoot)
      (slot : h.slot < top.slot) (spans : Spans c h rest) : Spans c top (h :: rest)

theorem Spans.slot_lt {c top : Header P} {chain : List (Header P)} (h : Spans c top chain) :
    c.slot < top.slot ∧ ∀ x ∈ chain, c.slot < x.slot ∧ x.slot < top.slot := by
  induction h with
  | nil _ slot => exact ⟨slot, by simp⟩
  | @cons top x rest _ slot _ ih =>
      refine ⟨Nat.lt_trans ih.1 slot, ?_⟩
      intro y hy
      rw [List.mem_cons] at hy
      rcases hy with rfl | hy
      · exact ⟨ih.1, slot⟩
      · exact ⟨(ih.2 y hy).1, Nat.lt_trans (ih.2 y hy).2 slot⟩

/-- With the header of the checkpoint at the end or not, the slots fall. -/
theorem Spans.pairwise {c top : Header P} {chain tail : List (Header P)} (h : Spans c top chain)
    (htail : tail = [] ∨ tail = [c]) :
    (chain ++ tail).Pairwise fun a b => b.slot < a.slot := by
  induction h with
  | nil _ _ => rcases htail with rfl | rfl <;> simp
  | @cons top x rest _ _ hspans ih =>
      rw [List.cons_append, List.pairwise_cons]
      refine ⟨?_, ih⟩
      intro y hy
      rw [List.mem_append] at hy
      rcases hy with hy | hy
      · exact (hspans.slot_lt.2 y hy).2
      · have hyc : y = c := by rcases htail with rfl | rfl <;> simp_all
        rw [hyc]
        exact hspans.slot_lt.1

/-- Headers of a batch: a part of the chain in any order, with or without the header of the
checkpoint, and the order in which they are popped. -/
def Batch (c : Header P) (segment popped : List (Header P)) : Prop :=
  ∃ headers, (headers.Perm segment ∨ headers.Perm (segment ++ [c])) ∧ Popped headers popped

/-- Sorting brings a part of the chain back into the order of the chain. -/
theorem Batch.popped_eq {c top : Header P} {chain segment rest popped : List (Header P)}
    (hspans : Spans c top chain) (hchain : chain = segment ++ rest) (h : Batch c segment popped) :
    popped = segment ∨ popped = segment ++ [c] := by
  have hsorted : ∀ tail, (tail = [] ∨ tail = [c]) →
      (segment ++ tail).Pairwise fun a b => b.slot < a.slot := by
    intro tail htail
    have hfull := hspans.pairwise htail
    rw [hchain] at hfull
    exact hfull.sublist ((List.sublist_append_left segment rest).append (List.Sublist.refl tail))
  have hunique : ∀ {headers l : List (Header P)}, headers.Perm l →
      l.Pairwise (fun a b => b.slot < a.slot) → Popped headers popped → popped = l := by
    intro headers l hperm hl hpopped
    have hself : Popped l l := ⟨.refl _, hl.imp Nat.le_of_lt⟩
    exact (hself.unique (hl.imp Nat.ne_of_gt) hperm hpopped).symm
  obtain ⟨headers, hperm | hperm, hpopped⟩ := h
  · left
    have hl := hsorted [] (.inl rfl)
    rw [List.append_nil] at hl
    exact hunique hperm hl hpopped
  · right
    exact hunique hperm (hsorted [c] (.inr rfl)) hpopped

/-- Without a replay-back under way the calls change nothing. -/
theorem processAll_of_none {s : State P} (hs : s.replayBack = none) (popped : List (List (Header P))) :
    s.processAll popped = s := by
  induction popped with
  | nil => rfl
  | cons popped rest ih => simp only [State.processAll, processReplayBack, hs, ih]

/-! ## one batch -/

/-- The loop goes through a part of the chain and stops at the header of the checkpoint. -/
theorem replayHeaders_segment {c : Header P} {segment rest : List (Header P)}
    {r : ReplayBackState P} (hspans : Spans c r.lastHeader (segment ++ rest))
    {popped : List (Header P)} (hpopped : popped = segment ∨ popped = segment ++ [c]) :
    replayHeaders (P.checkpoint c) r popped = segment.foldl ReplayBackState.replay r ∧
      Spans c (segment.foldl ReplayBackState.replay r).lastHeader rest := by
  induction segment generalizing r popped with
  | nil =>
      refine ⟨?_, hspans⟩
      rcases hpopped with rfl | rfl
      · rfl
      · rw [List.nil_append, replayHeaders, replayHeaders]
        simp
  | cons h segment ih =>
      obtain ⟨popped, rfl⟩ : ∃ popped', popped = h :: popped' := by
        rcases hpopped with rfl | rfl <;> exact ⟨_, rfl⟩
      rw [List.cons_append] at hspans
      cases hspans with
      | cons link slot hspans =>
          have hne : P.checkpoint h ≠ P.checkpoint c := by
            intro heq
            have hslot : h.slot = c.slot := congrArg Prod.fst heq
            exact Nat.ne_of_gt hspans.slot_lt.1 hslot
          rw [replayHeaders, if_neg (not_not.mpr link), if_neg hne]
          exact ih hspans (by simpa using hpopped)

/-- The last header joins the checkpoint exactly when nothing of the chain is left. -/
theorem Spans.parentRoot_eq_iff (hroot : Function.Injective P.headerRoot) {c top : Header P}
    {rest : List (Header P)} (h : Spans c top rest) :
    top.parentRoot = P.headerRoot c ↔ rest = [] := by
  cases h with
  | nil link _ => exact ⟨fun _ => rfl, fun _ => link.symm⟩
  | @cons _ x rest link _ hspans =>
      constructor
      · intro heq
        have hx : x = c := hroot (link.trans heq)
        have hlt := hspans.slot_lt.1
        rw [hx] at hlt
        exact absurd hlt (Nat.lt_irrefl _)
      · intro h
        contradiction

section

variable (hroot : Function.Injective P.headerRoot) {c : Header P}
include hroot

/-- **One batch of the chain**: it is replayed, and ends the replay-back if nothing is left. -/
theorem processHeaders_segment {s : State P} {r : ReplayBackState P}
    (hnewest : s.checkpoints.last = P.checkpoint c) {segment rest popped : List (Header P)}
    (hspans : Spans c r.lastHeader (segment ++ rest)) (hbatch : Batch c segment popped) :
    (processHeaders s r popped).1 =
      if rest = [] then s.finishReplayBack (segment.foldl ReplayBackState.replay r)
      else { s with replayBack := some (segment.foldl ReplayBackState.replay r) } := by
  obtain ⟨hreplay, hrest⟩ := replayHeaders_segment hspans (hbatch.popped_eq hspans rfl)
  have hjoins : (segment.foldl ReplayBackState.replay r).lastHeader.parentRoot ≠
      (P.checkpoint c).2 ↔ rest ≠ [] := not_congr (hrest.parentRoot_eq_iff hroot)
  unfold processHeaders
  simp only [hnewest, hreplay]
  by_cases hnil : rest = []
  · rw [if_pos hnil, if_neg (fun h => hjoins.mp h hnil)]
  · rw [if_neg hnil, if_pos (hjoins.mpr hnil)]

/-! ## all batches -/

/-- Calls of `process` go through what is left of the chain, whatever the cuts. -/
theorem processAll_segments {s : State P} {r : ReplayBackState P} (hr : s.replayBack = some r)
    (hnewest : s.checkpoints.last = P.checkpoint c) {segments popped : List (List (Header P))}
    (hbatches : List.Forall₂ (Batch c) segments popped)
    (hspans : Spans c r.lastHeader segments.flatten) (hleft : segments.flatten ≠ []) :
    s.processAll popped = s.finishReplayBack (segments.flatten.foldl ReplayBackState.replay r) := by
  induction hbatches generalizing s r with
  | nil => exact absurd rfl hleft
  | @cons segment popped segments rest hbatch _ ih =>
      rw [List.flatten_cons] at hspans ⊢
      have hstep := processHeaders_segment hroot hnewest hspans hbatch
      have hreplay : processReplayBack s popped = .ok (processHeaders s r popped) := by
        simp only [processReplayBack, hr]
      have hunfold : s.processAll (popped :: rest) =
          (processHeaders s r popped).1.processAll rest := by
        simp only [State.processAll, hreplay]
      rw [hunfold, hstep, List.foldl_append]
      by_cases hnil : segments.flatten = []
      · rw [if_pos hnil, hnil, List.foldl_nil]
        exact processAll_of_none rfl rest
      · rw [if_neg hnil]
        exact ih rfl hnewest (replayHeaders_segment hspans (hbatch.popped_eq hspans rfl)).2 hnil

/-- The state after a replay-back in batches: that of the whole chain replayed. -/
theorem replayInBatches_eq {s : State P} {p : Pending P} {f : Header P}
    {committee : Option (SyncCommitteeKeys P)} (hnewest : s.checkpoints.last = P.checkpoint c)
    (hverify : p.snapshot.verify p.update p.bits = .ok (some f, committee))
    {segments popped : List (List (Header P))} (hsome : segments ≠ [])
    (hbatches : List.Forall₂ (Batch c) segments popped) (hspans : Spans c f segments.flatten) :
    s.replayInBatches p popped =
      s.finishReplayBack (segments.flatten.foldl ReplayBackState.replay (.new f committee)) := by
  cases hbatches with
  | nil => exact absurd rfl hsome
  | @cons segment popped segments rest hbatch hbatches =>
      rw [List.flatten_cons] at hspans ⊢
      have hlast : (ReplayBackState.new f committee).lastHeader = f := rfl
      rw [← hlast] at hspans
      have hstep := processHeaders_segment (s := { s with replayBack := some (.new f committee) })
        hroot hnewest hspans hbatch
      have hunfold : s.replayInBatches p (popped :: rest) =
          (processHeaders { s with replayBack := some (.new f committee) } (.new f committee)
            popped).1.processAll rest := by
        simp only [State.replayInBatches, finishStart, hverify]
      rw [hunfold, hstep, List.foldl_append]
      by_cases hnil : segments.flatten = []
      · rw [if_pos hnil, hnil, List.foldl_nil]
        exact processAll_of_none rfl rest
      · rw [if_neg hnil]
        have hrest := (replayHeaders_segment hspans (hbatch.popped_eq hspans rfl)).2
        exact processAll_segments (r := segment.foldl ReplayBackState.replay (.new f committee))
          (s := { s with replayBack := some _ }) hroot rfl hnewest hbatches hrest hnil

end

/-! ## any headers -/

/-- What a batch of any headers may do to a replay-back: it moves its last header along
parent links and leaves everything else of the state, or the links have reached the newest
checkpoint. -/
structure Safe (s : State P) (r : ReplayBackState P) (after : State P × ReplayBackStatus) : Prop where
  inProcess : after.2 = .inProcess → ∃ r', after.1 = { s with replayBack := some r' } ∧
    r'.finalizedHeader = r.finalizedHeader ∧ r'.syncCommitteeNext = r.syncCommitteeNext ∧
      Linked r.lastHeader r'.lastHeader
  finished : after.2 = .finished → ∃ h, Linked r.lastHeader h ∧ h.parentRoot = s.checkpoints.last.2

theorem replayHeaders_linked (newest : Checkpoint P) (r : ReplayBackState P)
    (popped : List (Header P)) :
    Linked r.lastHeader (replayHeaders newest r popped).lastHeader :=
  replayHeaders_invariant (I := fun r' => Linked r.lastHeader r'.lastHeader)
    (fun _ _ h hlink _ => .parent h hlink) .refl popped

theorem processHeaders_safe (s : State P) (r : ReplayBackState P) (popped : List (Header P)) :
    Safe s r (processHeaders s r popped) := by
  have hlinked := replayHeaders_linked s.checkpoints.last r popped
  rcases processHeaders_cases s r popped with ⟨hjoins, heq⟩ | ⟨_, heq⟩
  · rw [heq]
    refine ⟨fun h => by contradiction, fun _ => ⟨_, hlinked, ?_⟩⟩
    rw [replayHeaders_lastHeader]
    exact hjoins
  · rw [heq]
    refine ⟨fun _ => ⟨_, rfl, ?_, ?_, hlinked⟩, fun h => by contradiction⟩
    · exact replayHeaders_finalizedHeader _ r popped
    · exact replayHeaders_syncCommitteeNext _ r popped

/-- What replaying one header leaves as it is, replaying a chain does too. -/
theorem foldl_replay_keeps {α : Type} (f : ReplayBackState P → α)
    (hf : ∀ r h, f (r.replay h) = f r) (chain : List (Header P)) (r : ReplayBackState P) :
    f (chain.foldl ReplayBackState.replay r) = f r := by
  induction chain generalizing r with
  | nil => rfl
  | cons h chain ih => exact (ih (r.replay h)).trans (hf r h)

theorem foldl_replay_finalizedHeader (chain : List (Header P)) (r : ReplayBackState P) :
    (chain.foldl ReplayBackState.replay r).finalizedHeader = r.finalizedHeader :=
  foldl_replay_keeps ReplayBackState.finalizedHeader replay_finalizedHeader chain r

theorem foldl_replay_syncCommitteeNext (chain : List (Header P)) (r : ReplayBackState P) :
    (chain.foldl ReplayBackState.replay r).syncCommitteeNext = r.syncCommitteeNext :=
  foldl_replay_keeps ReplayBackState.syncCommitteeNext replay_syncCommitteeNext chain r

theorem foldl_replay_first (chain : List (Header P)) (r : ReplayBackState P) :
    (chain.foldl ReplayBackState.replay r).checkpoints.first = r.checkpoints.first := by
  refine foldl_replay_keeps (fun r => r.checkpoints.first) (fun r h => ?_) chain r
  show (if _ then _ else _ : Checkpoints P).first = _
  split
  · exact Checkpoints.first_concat _ _
  · rfl

/-- **Cuts do not matter and junk does no harm.**  However the chain between the newest
checkpoint and the finalized header is cut into batches, the state at the end is that after
one batch; and a batch of any headers is safe. -/
theorem replayBack_batching (hroot : Function.Injective P.headerRoot) (s : State P) :
    (∀ (p : Pending P) (f : Header P) (committee : Option (SyncCommitteeKeys P)) (c : Header P)
        (segments popped : List (List (Header P))) (single : List (Header P)),
      s.checkpoints.last = P.checkpoint c →
      p.snapshot.verify p.update p.bits = .ok (some f, committee) →
      Spans c f segments.flatten → segments ≠ [] → List.Forall₂ (Batch c) segments popped →
      Batch c segments.flatten single →
        s.replayInBatches p popped = s.replayInBatches p [single] ∧
        (s.replayInBatches p popped).replayBack = none ∧
        (s.replayInBatches p popped).finalizedHeader = f) ∧
    ∀ r popped, Safe s r (processHeaders s r popped) := by
  refine ⟨?_, processHeaders_safe s⟩
  intro p f committee c segments popped single hnewest hverify hspans hsome hbatches hsingle
  have hcut := replayInBatches_eq hroot hnewest hverify hsome hbatches hspans
  have hbatch : List.Forall₂ (Batch c) [segments.flatten] [single] := .cons hsingle .nil
  have hflat : [segments.flatten].flatten = segments.flatten := List.flatten_singleton
  have hwhole := replayInBatches_eq hroot hnewest hverify (by simp) hbatch (hflat.symm ▸ hspans)
  rw [hflat] at hwhole
  rw [hcut, hwhole]
  exact ⟨rfl, rfl, foldl_replay_finalizedHeader segments.flatten (.new f committee)⟩

/-- The update of a waiting execution finalizes a header. -/
def finalizes (p : Pending P) (f : Header P) : Bool :=
  match p.snapshot.verify p.update p.bits with
  | .ok (some f', _) => decide (f' = f)
  | _ => false

theorem finalizes_iff {p : Pending P} {f : Header P} : finalizes p f = true ↔
    ∃ committee, p.snapshot.verify p.update p.bits = .ok (some f, committee) := by
  unfold finalizes
  split
  · rename_i f' committee h
    simp [h]
  · rename_i h
    simp only [Bool.false_eq_true, false_iff]
    rintro ⟨committee, heq⟩
    exact h f committee heq

/-- A replay-back up to block 3, started on the new program. -/
def ledgerPending : Pending ledgerPrimitives :=
  ⟨.start [], ledgerStart.snapshot, ledgerUpdate 4 true, List.replicate syncCommitteeSize true⟩

theorem finalizes_ledgerPending : finalizes ledgerPending (Digest.ledgerBlock 3) = true := by
  rw [ledgerPending, ledgerStart_eq]
  decide +kernel

/-- Two headers above block 0, each in its own batch, the first with the checkpoint. -/
theorem replayBack_batching_ledger : ∃ p : Pending ledgerPrimitives,
    Function.Injective ledgerPrimitives.headerRoot ∧
    ledgerStart.checkpoints.last = ledgerPrimitives.checkpoint (Digest.ledgerBlock 0) ∧
    Spans (P := ledgerPrimitives) (Digest.ledgerBlock 0) (Digest.ledgerBlock 3)
      [Digest.ledgerBlock 2, Digest.ledgerBlock 1] ∧
    ledgerStart.replayInBatches p
        [[Digest.ledgerBlock 2, Digest.ledgerBlock 0], [Digest.ledgerBlock 1]] =
      ledgerStart.replayInBatches p [[Digest.ledgerBlock 2, Digest.ledgerBlock 1]] ∧
    (ledgerStart.replayInBatches p
        [[Digest.ledgerBlock 2, Digest.ledgerBlock 0], [Digest.ledgerBlock 1]]).finalizedHeader =
      Digest.ledgerBlock 3 := by
  have hspans : Spans (P := ledgerPrimitives) (Digest.ledgerBlock 0) (Digest.ledgerBlock 3)
      [Digest.ledgerBlock 2, Digest.ledgerBlock 1] :=
    .cons rfl (by decide) (.cons rfl (by decide) (.nil rfl (by decide)))
  obtain ⟨committee, hverify⟩ := finalizes_iff.mp finalizes_ledgerPending
  have hbatches : List.Forall₂ (Batch (P := ledgerPrimitives) (Digest.ledgerBlock 0))
      [[Digest.ledgerBlock 2], [Digest.ledgerBlock 1]]
      [[Digest.ledgerBlock 2, Digest.ledgerBlock 0], [Digest.ledgerBlock 1]] :=
    .cons ⟨_, .inr (.refl _), .refl _, by decide⟩
      (.cons ⟨_, .inl (.refl _), .refl _, by decide⟩ .nil)
  have hsingle : Batch (P := ledgerPrimitives) (Digest.ledgerBlock 0)
      [Digest.ledgerBlock 2, Digest.ledgerBlock 1] [Digest.ledgerBlock 2, Digest.ledgerBlock 1] :=
    ⟨_, .inl (.refl _), .refl _, by decide⟩
  obtain ⟨heq, _, hfinalized⟩ := (replayBack_batching headerRoot_ledger_injective ledgerStart).1
    ledgerPending _ committee _ [[Digest.ledgerBlock 2], [Digest.ledgerBlock 1]] _ _ last_ledgerStart
    hverify hspans
    (by simp) hbatches hsingle
  exact ⟨ledgerPending, headerRoot_ledger_injective, last_ledgerStart, hspans, heq, hfinalized⟩

end GearBridges.CheckpointLightClient
