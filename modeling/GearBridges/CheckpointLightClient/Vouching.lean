import GearBridges.CheckpointLightClient.HonestChain

/-!
# CheckpointLightClient.Vouching

Every committee and every checkpoint is vouched for by a committee quorum, in every run
and against every caller: no honesty is assumed here.  The statements speak of what was
stored *earlier*, so they are about runs with their history.
-/

namespace GearBridges.CheckpointLightClient

open EthereumCommon

variable {P : Primitives}

/-! ## what vouches for what -/

/-- The initial current committee, or one stored in an earlier state. -/
def Stored (initial : SyncCommitteeKeys P) (past : List (World P)) (c : SyncCommitteeKeys P) :
    Prop :=
  c = initial ∨ ∃ w ∈ past, c = w.state.syncCommitteeCurrent ∨ c = w.state.syncCommitteeNext

section

variable (network : Network) (initial : SyncCommitteeKeys P) (past : List (World P))

/-- A header signed by a quorum of a committee stored earlier. -/
def Attested (h : Header P) : Prop :=
  ∃ u : Update P, u.attestedHeader = h ∧ ∃ c, Stored initial past c ∧ SignedBy network c u

/-- A committee proven to be the next one by an attested header. -/
def VouchedCommittee (c : SyncCommitteeKeys P) : Prop :=
  ∃ attested, Attested network initial past attested ∧ NextProven network attested c

/-- A header proven finalized by an attested header, or linked to one by parent roots. -/
def VouchedHeader (h : Header P) : Prop :=
  ∃ attested finalized, Attested network initial past attested ∧
    FinalityProven network attested finalized ∧ Linked finalized h

/-- A replay-back under way whose parts are vouched for. -/
structure VouchedReplay (r : ReplayBackState P) : Prop where
  sound : r.Sound
  finalizedHeader : VouchedHeader network initial past r.finalizedHeader
  syncCommitteeNext : ∀ c, r.syncCommitteeNext = some c → VouchedCommittee network initial past c

/-- A state all of whose parts are vouched for. -/
structure Vouched (s : State P) : Prop where
  network_eq : s.network = network
  syncCommitteeCurrent : s.syncCommitteeCurrent = initial ∨
    VouchedCommittee network initial past s.syncCommitteeCurrent
  syncCommitteeNext : VouchedCommittee network initial past s.syncCommitteeNext
  replayBack : ∀ r, s.replayBack = some r → VouchedReplay network initial past r
  finalizedHeader : VouchedHeader network initial past s.finalizedHeader
  checkpoints : ∀ c ∈ s.checkpoints.entries, ∃ h, P.checkpoint h = c ∧
    VouchedHeader network initial past h

end

variable {network : Network} {initial : SyncCommitteeKeys P} {past : List (World P)}

/-! ## the past only grows -/

theorem Stored.mono {c : SyncCommitteeKeys P} (h : Stored initial past c) (w : World P) :
    Stored initial (w :: past) c := by
  cases h with
  | inl h => exact .inl h
  | inr h =>
      obtain ⟨w', hw', h⟩ := h
      exact .inr ⟨w', List.mem_cons_of_mem w hw', h⟩

theorem Attested.mono {h : Header P} (ha : Attested network initial past h) (w : World P) :
    Attested network initial (w :: past) h := by
  obtain ⟨u, hu, c, hc, hsigned⟩ := ha
  exact ⟨u, hu, c, hc.mono w, hsigned⟩

theorem VouchedCommittee.mono {c : SyncCommitteeKeys P}
    (hc : VouchedCommittee network initial past c) (w : World P) :
    VouchedCommittee network initial (w :: past) c := by
  obtain ⟨attested, ha, hproven⟩ := hc
  exact ⟨attested, ha.mono w, hproven⟩

theorem VouchedHeader.mono {h : Header P} (hh : VouchedHeader network initial past h)
    (w : World P) : VouchedHeader network initial (w :: past) h := by
  obtain ⟨attested, finalized, ha, hproven, hlinked⟩ := hh
  exact ⟨attested, finalized, ha.mono w, hproven, hlinked⟩

theorem VouchedReplay.mono {r : ReplayBackState P} (hr : VouchedReplay network initial past r)
    (w : World P) : VouchedReplay network initial (w :: past) r where
  sound := hr.sound
  finalizedHeader := hr.finalizedHeader.mono w
  syncCommitteeNext c hc := (hr.syncCommitteeNext c hc).mono w

theorem Vouched.mono {s : State P} (hs : Vouched network initial past s) (w : World P) :
    Vouched network initial (w :: past) s where
  network_eq := hs.network_eq
  syncCommitteeCurrent := hs.syncCommitteeCurrent.imp id (·.mono w)
  syncCommitteeNext := hs.syncCommitteeNext.mono w
  replayBack r hr := (hs.replayBack r hr).mono w
  finalizedHeader := hs.finalizedHeader.mono w
  checkpoints c hc := by
    obtain ⟨h, hh, hv⟩ := hs.checkpoints c hc
    exact ⟨h, hh, hv.mono w⟩

/-! ## what is written is vouched for -/

/-- What `verify` returns for stored committees is vouched for. -/
theorem verify_vouched {slot : Slot} {current next : SyncCommitteeKeys P} {u : Update P}
    {bits : List Bool} {f : Option (Header P)} {c : Option (SyncCommitteeKeys P)}
    (hcurrent : Stored initial past current) (hnext : Stored initial past next)
    (h : verify network slot current next u bits = .ok (f, c)) :
    (∀ header, f = some header → VouchedHeader network initial past header) ∧
    (∀ keys, c = some keys → VouchedCommittee network initial past keys) := by
  obtain ⟨_, ⟨signers, hsigners, hsigned⟩, _, hcommittee, _⟩ := verify_ok h
  have hstored : Stored initial past signers := by
    cases signingCommittee_some hsigners with
    | inl hs => rw [hs.1]; exact hnext
    | inr hs => rw [hs.1]; exact hcurrent
  have hattested : Attested network initial past u.attestedHeader :=
    ⟨u, rfl, signers, hstored, hsigned⟩
  constructor
  · intro header hheader
    subst hheader
    obtain ⟨hf, _, hproven⟩ := verify_finalized h
    cases hf
    exact ⟨_, _, hattested, hproven, .refl⟩
  · intro keys hkeys
    subst hkeys
    exact ⟨_, hattested, (committeeUpdate_some hcommittee).1⟩

theorem VouchedHeader.linked {top h : Header P} (ht : VouchedHeader network initial past top)
    (hlinked : Linked top h) : VouchedHeader network initial past h := by
  induction hlinked with
  | refl => exact ht
  | parent _ hparent ih =>
      obtain ⟨attested, finalized, ha, hproven, hl⟩ := ih
      exact ⟨attested, finalized, ha, hproven, .parent hl hparent⟩

theorem Vouched.applyUpdate {s : State P} (hs : Vouched network initial past s)
    {f : Option (Header P)} {c : Option (SyncCommitteeKeys P)}
    (hf : ∀ header, f = some header → VouchedHeader network initial past header)
    (hc : ∀ keys, c = some keys → VouchedCommittee network initial past keys) :
    Vouched network initial past (s.applyUpdate f c) where
  network_eq := hs.network_eq
  syncCommitteeCurrent :=
    rotate_current (p := fun keys => keys = initial ∨ VouchedCommittee network initial past keys)
      hs.syncCommitteeCurrent (.inr hs.syncCommitteeNext) c
  syncCommitteeNext := rotate_next hs.syncCommitteeNext hc
  replayBack := hs.replayBack
  finalizedHeader := by
    cases f with
    | none => exact hs.finalizedHeader
    | some header => exact hf header rfl
  checkpoints := by
    intro x hx
    cases f with
    | none => exact hs.checkpoints x hx
    | some header =>
        cases Checkpoints.mem_push hx with
        | inl hx => exact hs.checkpoints x hx
        | inr hx => exact ⟨header, hx.symm, hf header rfl⟩

theorem VouchedReplay.new {f : Header P} {c : Option (SyncCommitteeKeys P)}
    (hf : VouchedHeader network initial past f)
    (hc : ∀ keys, c = some keys → VouchedCommittee network initial past keys) :
    VouchedReplay network initial past (.new f c) where
  sound := .new f c
  finalizedHeader := hf
  syncCommitteeNext := hc

theorem VouchedReplay.replayHeaders {r : ReplayBackState P}
    (hr : VouchedReplay network initial past r) (newest : Checkpoint P)
    (popped : List (Header P)) :
    VouchedReplay network initial past (replayHeaders newest r popped) where
  sound := replayHeaders_sound hr.sound popped
  finalizedHeader := by
    rw [replayHeaders_finalizedHeader]
    exact hr.finalizedHeader
  syncCommitteeNext := by
    rw [replayHeaders_syncCommitteeNext]
    exact hr.syncCommitteeNext

theorem Vouched.finishReplayBack {s : State P} (hs : Vouched network initial past s)
    {r : ReplayBackState P} (hr : VouchedReplay network initial past r) :
    Vouched network initial past (s.finishReplayBack r) where
  network_eq := hs.network_eq
  syncCommitteeCurrent :=
    rotate_current (p := fun keys => keys = initial ∨ VouchedCommittee network initial past keys)
      hs.syncCommitteeCurrent (.inr hs.syncCommitteeNext) r.syncCommitteeNext
  syncCommitteeNext := rotate_next hs.syncCommitteeNext hr.syncCommitteeNext
  replayBack := by simp [State.finishReplayBack]
  finalizedHeader := hr.finalizedHeader
  checkpoints := by
    intro x hx
    cases Checkpoints.mem_pushAll hx with
    | inl hx => exact hs.checkpoints x hx
    | inr hx =>
        obtain ⟨h, hh, hlinked⟩ := hr.sound.checkpoints x hx
        exact ⟨h, hh, hr.finalizedHeader.linked hlinked⟩

theorem Vouched.processHeaders {s : State P} (hs : Vouched network initial past s)
    {r : ReplayBackState P} (hr : VouchedReplay network initial past r)
    (popped : List (Header P)) :
    Vouched network initial past (processHeaders s r popped).1 := by
  have hr' := hr.replayHeaders s.checkpoints.last popped
  cases processHeaders_cases s r popped with
  | inl h =>
      rw [h.2]
      exact hs.finishReplayBack hr'
  | inr h =>
      rw [h.2]
      refine { hs with replayBack := ?_ }
      intro r' heq
      cases heq
      exact hr'

/-! ## runs -/

/-- The state is vouched for, and waiting executions read stored committees. -/
structure VouchInv (network : Network) (initial : SyncCommitteeKeys P) (w : World P)
    (past : List (World P)) : Prop where
  state : Vouched network initial past w.state
  snapshots : ∀ p ∈ w.pending, p.snapshot.network = network ∧
    Stored initial (w :: past) p.snapshot.syncCommitteeCurrent ∧
    Stored initial (w :: past) p.snapshot.syncCommitteeNext

theorem VouchInv.snapshots_mono {w w' : World P} (h : VouchInv network initial w past)
    (hsub : w'.pending ⊆ w.pending) :
    ∀ p ∈ w'.pending, p.snapshot.network = network ∧
      Stored initial (w' :: w :: past) p.snapshot.syncCommitteeCurrent ∧
      Stored initial (w' :: w :: past) p.snapshot.syncCommitteeNext := by
  intro p hp
  obtain ⟨hn, hcurrent, hnext⟩ := h.snapshots p (hsub hp)
  exact ⟨hn, hcurrent.mono w', hnext.mono w'⟩

/-- The result of a waiting execution is vouched for by the states up to now. -/
theorem VouchInv.verify {w : World P} (h : VouchInv network initial w past) {i : Nat}
    {p : Pending P} (hp : w.pending[i]? = some p) {f : Option (Header P)}
    {c : Option (SyncCommitteeKeys P)} (hverify : p.snapshot.verify p.update p.bits = .ok (f, c)) :
    (∀ header, f = some header → VouchedHeader network initial (w :: past) header) ∧
    (∀ keys, c = some keys → VouchedCommittee network initial (w :: past) keys) := by
  obtain ⟨hn, hcurrent, hnext⟩ := h.snapshots p (List.mem_of_getElem? hp)
  unfold Snapshot.verify at hverify
  rw [hn] at hverify
  exact verify_vouched hcurrent hnext hverify

theorem VouchInv.step {w w' : World P} {a : Action P} (h : VouchInv network initial w past)
    (hstep : step w a = some w') : VouchInv network initial w' (w :: past) := by
  cases step_effect hstep with
  | suspended p hsnapshot =>
      refine ⟨h.state.mono w, ?_⟩
      intro q hq
      rcases List.mem_append.mp hq with hq | hq
      · obtain ⟨hn, hcurrent, hnext⟩ := h.snapshots q hq
        exact ⟨hn, hcurrent.mono _, hnext.mono _⟩
      · -- the new snapshot is of the state before the step
        rw [List.mem_singleton] at hq
        subst hq
        rw [hsnapshot]
        exact ⟨h.state.network_eq, .inr ⟨w, by simp, .inl rfl⟩, .inr ⟨w, by simp, .inr rfl⟩⟩
  | unchanged pending hpending => exact ⟨h.state.mono w, h.snapshots_mono hpending⟩
  | updated p f c hp _ hverify =>
      obtain ⟨hf, hc⟩ := h.verify hp hverify
      exact ⟨(h.state.mono w).applyUpdate hf hc, h.snapshots_mono (List.eraseIdx_subset)⟩
  | started p f c headers hp _ hverify =>
      obtain ⟨hf, hc⟩ := h.verify hp hverify
      have hr : VouchedReplay network initial (w :: past) (.new f c) := .new (hf f rfl) hc
      have hs : Vouched network initial (w :: past)
          { w.state with replayBack := some (.new f c) } := by
        refine { h.state.mono w with replayBack := ?_ }
        intro r heq
        cases heq
        exact hr
      exact ⟨hs.processHeaders hr _, h.snapshots_mono (List.eraseIdx_subset)⟩
  | replayed r hr =>
      have hs := h.state.mono w
      exact ⟨hs.processHeaders (hs.replayBack r hr) _, h.snapshots_mono (List.Subset.refl _)⟩

theorem init_vouched {arg : Init P} {s : State P} (h : init arg = some s) :
    Vouched arg.network arg.syncCommitteeCurrentPubKeys [] s := by
  unfold init at h
  split at h
  · split at h
    · split at h
      · contradiction
      · split at h
        · rename_i f c hverify
          cases h
          have hinitial : Stored arg.syncCommitteeCurrentPubKeys []
            arg.syncCommitteeCurrentPubKeys := .inl rfl
          obtain ⟨hf, hc⟩ := verify_vouched hinitial hinitial hverify
          refine ⟨rfl, .inl rfl, hc _ rfl, by simp, hf _ rfl, ?_⟩
          intro x hx
          simp only [Checkpoints.singleton, List.mem_singleton] at hx
          exact ⟨f, hx.symm, hf _ rfl⟩
        · contradiction
    · contradiction
  · contradiction

/-- **Every checkpoint is vouched for by a committee quorum**, in every state of every
run from a successful `init`. -/
theorem vouched_of_trace {arg : Init P} {s : State P} (hinit : init arg = some s)
    {w : World P} {past : List (World P)}
    (h : Transition.Trace step (StartsAt s) (w :: past)) :
    Vouched arg.network arg.syncCommitteeCurrentPubKeys past w.state := by
  have hinv : VouchInv arg.network arg.syncCommitteeCurrentPubKeys w past := by
    refine Transition.Trace.invariant (I := VouchInv arg.network arg.syncCommitteeCurrentPubKeys)
      ?_ (fun _ _ _ _ hI hstep => hI.step hstep) h
    intro w hw
    subst hw
    exact ⟨init_vouched hinit, by simp⟩
  exact hinv.state

/-- An update waits while a replay-back starts and ends, and is then written. -/
theorem vouched_of_trace_ledger : ∃ w past,
    Transition.Trace step (StartsAt ledgerStart) (w :: past) ∧
      w.state.checkpoints.entries.length = 3 ∧
      Vouched .hoodi (ledgerCommittee 9) past w.state := by
  obtain ⟨w, past, h, hlength⟩ := Transition.exists_trace_of_exec step
    (show StartsAt ledgerStart ⟨ledgerStart, []⟩ from rfl)
    [.process (ledgerUpdate 3 true) ledgerBits, .start (ledgerUpdate 3 true) ledgerBits [],
      .finish 1 [], .replay [Digest.ledgerBlock 1] [Digest.ledgerBlock 1], .finish 0 []]
    (fun w => decide (w.state.checkpoints.entries.length = 3)) (by rw [ledgerStart_eq]; decide +kernel)
  exact ⟨w, past, h, of_decide_eq_true hlength, vouched_of_trace init_ledgerInit h⟩

end GearBridges.CheckpointLightClient
