import GearBridges.CheckpointLightClient.Batching
import GearBridges.Relayer.ComposePayload
import GearBridges.Relayer.SlotsBatch

/-!
# Relayer.ReplayBack

The relayer's driver of replay-backs.  When the program is too far behind a sync update,
`execute` finishes the replay-back that is open, replays one update of each period after it
and at last the sync update itself.  For each it requests the headers of the intervals of
`slots_batch::Iter` and sends them with `start` and `process`.

The driver cuts by slots, and the program is done as soon as the parent of the last header is
the newest checkpoint.  This may be before the last interval, and then the next `process`
fails with `NotStarted` (`last_interval_refused`).  `execute_completes_iff` says when all
goes well: there is one interval only, or a block in the last interval above its first slot.
-/

namespace GearBridges.EthereumCheckpoints

open CheckpointLightClient ComposePayload EthEvents EthereumCommon

/-! ## the driver -/

section

variable (P : Primitives)

/-- An update as the beacon node returns it: whether its signature is a point, and what the
program decodes of its aggregate. -/
structure UpdateData where
  update : Update P
  signatureDecodes : Bool
  syncAggregate : Option (List Bool)

/-- Arguments of `execute`.  An open replay-back is given by the slots of its finalized and
of its last header. -/
structure Args where
  replayBack : Option (Nat × Nat)
  checkpoint : Checkpoint P
  syncUpdate : Update P
  sizeBatch : Nat
  syncAggregate : Option (List Bool)

inductive DriverError where
  | emptyRange (slotStart slotEnd : Nat)
  | client (e : AnyError)
  | signature
  | program (e : ReplayBackError P)

end

def maxRequestLightClientUpdates : Nat := 128

variable {E : Setting} {F : FullBody E}

def newIter (slotStart slotEnd sizeBatch : Nat) : Except (DriverError E.primitives) Iter :=
  match Iter.new slotStart slotEnd sizeBatch with
  | none => .error (.emptyRange slotStart slotEnd)
  | some iter => .ok iter

section

variable (client : BeaconClient E F)
  (getUpdates : Nat → Nat → Except AnyError (List (UpdateData E.primitives)))
  (sort : SortBySlot E)

def headersOf (interval : Nat × Nat) :
    Except (DriverError E.primitives) (List (Header E.primitives)) :=
  (requestHeaders client interval.1 interval.2).mapError .client

/-- `replay_back_slots_inner`: the state of the program after `ReplayBack::process`. -/
def replayBackSlotsInner (s : State E.primitives) (interval : Nat × Nat) :
    Except (DriverError E.primitives) (State E.primitives) := do
  let headers ← headersOf client interval
  let (s, _) ← (processReplayBack s (sort.val headers).reverse).mapError .program
  return s

def replayBackSlots :
    State E.primitives → List (Nat × Nat) → Except (DriverError E.primitives) (State E.primitives)
  | s, [] => .ok s
  | s, interval :: intervals => do
      let s ← replayBackSlotsInner client sort s interval
      replayBackSlots s intervals

/-- The state of the program after `ReplayBack::start`, with nothing in between. -/
def replayBackSlotsStart (s : State E.primitives) (interval : Nat × Nat)
    (update : Update E.primitives) (syncAggregate : Option (List Bool)) :
    Except (DriverError E.primitives) (State E.primitives) := do
  let headers ← headersOf client interval
  let pending ← (beginStart s update syncAggregate headers).mapError .program
  let (s, _) ← (finishStart s pending (sort.val headers).reverse).mapError .program
  return s

/-- `replay_back_slots_start` with the first interval and `replay_back_slots` with the others;
nothing is sent without intervals. -/
def replayUpdate (s : State E.primitives) (intervals : List (Nat × Nat))
    (update : Update E.primitives) (syncAggregate : Option (List Bool)) :
    Except (DriverError E.primitives) (State E.primitives) :=
  match intervals with
  | [] => .ok s
  | interval :: intervals => do
      let s ← replayBackSlotsStart client sort s interval update syncAggregate
      replayBackSlots client sort s intervals

/-- The loop over the updates, and the sync update after it. -/
def replayUpdates (args : Args E.primitives) : State E.primitives → Nat →
    List (UpdateData E.primitives) → Except (DriverError E.primitives) (State E.primitives)
  | s, slotStart, [] => do
      let iter ← newIter slotStart args.syncUpdate.finalizedHeader.slot args.sizeBatch
      replayUpdate client sort s iter.intervals args.syncUpdate args.syncAggregate
  | s, slotStart, data :: updates => do
      let slotEnd := data.update.finalizedHeader.slot
      let iter ← newIter slotStart slotEnd args.sizeBatch
      if !data.signatureDecodes then throw .signature
      let s ← replayUpdate client sort s iter.intervals data.update data.syncAggregate
      if slotEnd = args.syncUpdate.finalizedHeader.slot then return s
      else replayUpdates args s slotEnd updates

/-- The open replay-back; the state and the slot from which the updates go on. -/
def finishOpen (args : Args E.primitives) (s : State E.primitives) :
    Except (DriverError E.primitives) (State E.primitives × Nat) :=
  match args.replayBack with
  | none => .ok (s, args.checkpoint.1)
  | some (finalizedHeader, slotEnd) => do
      let iter ← newIter args.checkpoint.1 slotEnd args.sizeBatch
      let s ← replayBackSlots client sort s iter.intervals
      return (s, finalizedHeader)

/-- `execute`, as what becomes of the state of the program when nobody else sends to it. -/
def execute (args : Args E.primitives) (s : State E.primitives) :
    Except (DriverError E.primitives) (State E.primitives) := do
  let (s, slotStart) ← finishOpen client sort args s
  let updates ← (getUpdates (1 + calculatePeriod slotStart) maxRequestLightClientUpdates).mapError
    .client
  replayUpdates client sort args s slotStart updates

end

/-! ## the headers of an interval -/

/-- The blocks of a right open interval of slots. -/
def inRange (blocks : List (Block E F)) (lo hi : Nat) : List (Block E F) :=
  blocks.filter fun b => decide (lo ≤ b.slot ∧ b.slot < hi)

theorem mem_inRange {blocks : List (Block E F)} {lo hi : Nat} {b : Block E F} :
    b ∈ inRange blocks lo hi ↔ b ∈ blocks ∧ lo ≤ b.slot ∧ b.slot < hi := by
  simp [inRange]

section

variable {client : BeaconClient E F} {blocks : List (Block E F)} {finalized : Block E F}
  {decodes : Block E F → Prop}

theorem slots_inRange (h : Honest client blocks finalized decodes) (lo hi : Nat) :
    (inRange blocks lo hi).Pairwise fun a b => a.slot < b.slot :=
  h.slots.filter _

/-- An honest node returns the headers of its blocks. -/
theorem requestHeaders_inRange (h : Honest client blocks finalized decodes) {lo hi : Nat}
    (hle : lo ≤ hi) :
    requestHeaders client lo hi = .ok ((inRange blocks lo hi).map Block.header) := by
  have hget : client.getBlockHeader = answer blocks Block.header := funext h.getBlockHeader
  have hfound : (List.range' lo (hi - lo)).filterMap
      (fun slot => blocks.find? fun b => b.slot = slot) = inRange blocks lo hi := by
    refine eq_of_slots (pairwise_found h.slots _ _) (slots_inRange h lo hi) fun b => ?_
    simp only [List.mem_filterMap, List.mem_range'_1, find?_slot h.slots, mem_inRange]
    constructor
    · rintro ⟨slot, hrange, hb, rfl⟩
      exact ⟨hb, by omega⟩
    · rintro ⟨hb, hrange⟩
      exact ⟨b.slot, by omega, hb, rfl⟩
  unfold requestHeaders
  rw [if_neg (Nat.not_lt.mpr hle), hget, collectFound_answer, hfound]

/-- An interval is cut in two. -/
theorem inRange_append (h : Honest client blocks finalized decodes) {lo mid hi : Nat}
    (hlo : lo ≤ mid) (hhi : mid ≤ hi) :
    inRange blocks lo hi = inRange blocks lo mid ++ inRange blocks mid hi := by
  refine eq_of_slots (slots_inRange h lo hi) ?_ fun b => ?_
  · rw [List.pairwise_append]
    refine ⟨slots_inRange h lo mid, slots_inRange h mid hi, fun a ha b hb => ?_⟩
    have := (mem_inRange.mp ha).2.2
    have := (mem_inRange.mp hb).2.1
    omega
  · rw [List.mem_append, mem_inRange, mem_inRange, mem_inRange]
    constructor
    · rintro ⟨hb, hrange⟩
      by_cases hmid : b.slot < mid
      · exact .inl ⟨hb, by omega⟩
      · exact .inr ⟨hb, by omega⟩
    · rintro (⟨hb, hrange⟩ | ⟨hb, hrange⟩)
      · exact ⟨hb, by omega⟩
      · exact ⟨hb, by omega⟩

/-- The headers of the blocks of an interval, newest first. -/
def segment (blocks : List (Block E F)) (lo hi : Nat) : List (Header E.primitives) :=
  ((inRange blocks lo hi).map Block.header).reverse

theorem segment_append (h : Honest client blocks finalized decodes) {lo mid hi : Nat}
    (hlo : lo ≤ mid) (hhi : mid ≤ hi) :
    segment blocks lo hi = segment blocks mid hi ++ segment blocks lo mid := by
  unfold segment
  rw [inRange_append h hlo hhi, List.map_append, List.reverse_append]

theorem segment_eq_nil_iff {lo hi : Nat} : segment blocks lo hi = [] ↔
    ∀ b ∈ blocks, lo ≤ b.slot → hi ≤ b.slot := by
  simp [segment, inRange]

/-- The blocks between two blocks of the chain lead from the one down to the other. -/
theorem spans_of_chain {c f : Block E F} {between : List (Block E F)}
    (hchain : (c :: (between ++ [f])).IsChain Follows) :
    Spans c.header f.header (between.map Block.header).reverse := by
  induction between using List.reverseRecOn generalizing f with
  | nil =>
      rw [List.nil_append, List.isChain_cons_cons] at hchain
      exact .nil hchain.1.1.symm hchain.1.2.1
  | append_singleton between b ih =>
      rw [List.append_assoc, ← List.cons_append, List.singleton_append,
        List.isChain_append_cons_cons] at hchain
      obtain ⟨hleft, hfollows, -⟩ := hchain
      rw [List.map_append, List.reverse_append]
      exact .cons hfollows.1.symm hfollows.2.1 (ih hleft)

theorem spans_segment (h : Honest client blocks finalized decodes) {c f : Block E F}
    (hc : c ∈ blocks) (hf : f ∈ blocks) (hlt : c.slot < f.slot) :
    Spans c.header f.header (segment blocks (c.slot + 1) f.slot) := by
  have hslots := h.slots
  obtain ⟨older, rest, hrest⟩ := List.append_of_mem hc
  have hfrest : f ∈ rest := by
    rw [hrest, List.mem_append, List.mem_cons] at hf
    rcases hf with hf | rfl | hf
    · rw [hrest, List.pairwise_append] at hslots
      exact absurd (hslots.2.2 f hf c List.mem_cons_self) (Nat.lt_asymm hlt)
    · exact absurd hlt (Nat.lt_irrefl _)
    · exact hf
  obtain ⟨between, newer, rfl⟩ := List.append_of_mem hfrest
  rw [hrest, List.pairwise_append, List.pairwise_cons, List.pairwise_append, List.pairwise_cons]
    at hslots
  obtain ⟨-, ⟨hlow, hsorted, ⟨hnewer, -⟩, hup⟩, holder⟩ := hslots
  have hbetween : inRange blocks (c.slot + 1) f.slot = between := by
    refine eq_of_slots (slots_inRange h _ _) hsorted fun b => ?_
    rw [mem_inRange, hrest]
    simp only [List.mem_append, List.mem_cons]
    constructor
    · rintro ⟨hb | rfl | hb | rfl | hb, hrange⟩
      · have := holder b hb c List.mem_cons_self
        omega
      · omega
      · exact hb
      · omega
      · have := hnewer b hb
        omega
    · intro hb
      have := hlow b (List.mem_append_left _ hb)
      have := hup b hb f List.mem_cons_self
      exact ⟨.inr (.inr (.inl hb)), by omega⟩
  have hpart : (c :: (between ++ [f])).IsChain Follows := by
    have hchain := h.chain
    have hsplit : c :: (between ++ f :: newer) = c :: (between ++ [f]) ++ newer := by simp
    rw [hrest, hsplit] at hchain
    exact hchain.right_of_append.left_of_append
  unfold segment
  rw [hbetween]
  exact spans_of_chain hpart

end

/-! ## one interval -/

section

variable {client : BeaconClient E F} {blocks : List (Block E F)} {finalized : Block E F}
  {decodes : Block E F → Prop} {c : Block E F} {lo hi : Nat}

theorem block_of_slot (h : Honest client blocks finalized decodes) {b : Block E F} (hb : b ∈ blocks)
    (hc : c ∈ blocks) (hslot : b.slot = c.slot) : b = c := by
  have hfind := (find?_slot h.slots).mpr ⟨hb, hslot⟩
  rw [(find?_slot h.slots).mpr ⟨hc, rfl⟩] at hfind
  injection hfind with hfind
  exact hfind.symm

theorem inRange_singleton (h : Honest client blocks finalized decodes) (hc : c ∈ blocks) :
    inRange blocks c.slot (c.slot + 1) = [c] := by
  refine eq_of_slots (slots_inRange h _ _) (List.pairwise_singleton _ _) fun b => ?_
  rw [mem_inRange, List.mem_singleton]
  constructor
  · rintro ⟨hb, hle, hlt⟩
    exact block_of_slot h hb hc (by omega)
  · rintro rfl
    exact ⟨hc, by omega⟩

/-- The headers of the last interval: the block of the checkpoint comes last. -/
theorem batch_last (h : Honest client blocks finalized decodes) (sort : SortBySlot E)
    (hc : c ∈ blocks) (hhi : c.slot < hi) : Batch c.header (segment blocks (c.slot + 1) hi)
      (sort.val ((inRange blocks c.slot hi).map Block.header)).reverse := by
  refine ⟨_, .inr ?_, sort.2 _⟩
  rw [inRange_append h (Nat.le_succ c.slot) hhi, inRange_singleton h hc]
  have hswap : ([c.header] ++ (inRange blocks (c.slot + 1) hi).map Block.header).Perm
      ((inRange blocks (c.slot + 1) hi).map Block.header ++ [c.header]) := List.perm_append_comm
  exact hswap.trans ((List.reverse_perm _).symm.append_right [c.header])

/-- The headers of another interval. -/
theorem batch_above (sort : SortBySlot E) : Batch c.header (segment blocks lo hi)
    (sort.val ((inRange blocks lo hi).map Block.header)).reverse :=
  ⟨_, .inl (List.reverse_perm _).symm, sort.2 _⟩

variable (hroot : Function.Injective E.primitives.headerRoot) {s : State E.primitives}
  {r : ReplayBackState E.primitives}
include hroot

/-- A `process` with the headers of an honest node. -/
theorem replayBackSlotsInner_eq (h : Honest client blocks finalized decodes) (sort : SortBySlot E)
    (hr : s.replayBack = some r) (hnewest : s.checkpoints.last = E.primitives.checkpoint c.header)
    {part rest : List (Header E.primitives)} (hspans : Spans c.header r.lastHeader (part ++ rest))
    (hle : lo ≤ hi) (hbatch : Batch c.header part
      (sort.val ((inRange blocks lo hi).map Block.header)).reverse) :
    replayBackSlotsInner client sort s (lo, hi) =
      .ok (if rest = [] then s.finishReplayBack (part.foldl ReplayBackState.replay r)
        else { s with replayBack := some (part.foldl ReplayBackState.replay r) }) := by
  have hstep := processHeaders_segment hroot hnewest hspans hbatch
  have hreplay : processReplayBack s
      (sort.val ((inRange blocks lo hi).map Block.header)).reverse =
        .ok (processHeaders s r (sort.val ((inRange blocks lo hi).map Block.header)).reverse) := by
    simp only [processReplayBack, hr]
  simp only [replayBackSlotsInner, headersOf, requestHeaders_inRange h hle, Except.mapError, bind,
    Except.bind, hreplay, pure, Except.pure, hstep]

end

/-! ## one replay-back -/

/-- A block in the last interval above its first slot. -/
def BlockInLast (blocks : List (Block E F)) (n lo hi : Nat) : Prop :=
  ∃ b ∈ blocks, lo < b.slot ∧ b.slot < lo + Iter.lastLength lo hi n

/-- The intervals fit: the sum of `Iter::next` does not wrap, and there is one interval only or
a block in the last one above its first slot. -/
def Fits (blocks : List (Block E F)) (n lo hi : Nat) : Prop :=
  lo + n < 2 ^ 64 ∧ (hi < lo + n ∨ BlockInLast blocks n lo hi)

section

variable {client : BeaconClient E F} {blocks : List (Block E F)} {finalized : Block E F}
  {decodes : Block E F → Prop} {c : Block E F} {n hi : Nat}

theorem replayBackSlotsInner_of_none (h : Honest client blocks finalized decodes)
    (sort : SortBySlot E) {s : State E.primitives} (hs : s.replayBack = none) {lo : Nat} (hle : lo ≤ hi) :
    replayBackSlotsInner client sort s (lo, hi) = .error (.program .notStarted) := by
  simp only [replayBackSlotsInner, headersOf, requestHeaders_inRange h hle, Except.mapError, bind,
    Except.bind, processReplayBack, hs]

/-- Below the first interval the condition is the same: what is left there has a block, also
when it is the last interval. -/
theorem fits_iff_below (hn : 2 ≤ n) (hle : c.slot + n ≤ hi) (hcut : c.slot + 1 ≤ hi - (n - 1))
    (hblock : ¬ ∀ b ∈ blocks, c.slot + 1 ≤ b.slot → hi - (n - 1) ≤ b.slot) :
    (hi < c.slot + n ∨ BlockInLast blocks n c.slot hi) ↔
      (hi - (n - 1) < c.slot + n ∨ BlockInLast blocks n c.slot (hi - (n - 1))) := by
  have hlast : BlockInLast blocks n c.slot hi ↔ BlockInLast blocks n c.slot (hi - (n - 1)) := by
    unfold BlockInLast
    rw [Iter.lastLength_of_le hn hle]
  rw [hlast]
  constructor
  · rintro (hgt | hin)
    · exact absurd hgt (Nat.not_lt.mpr hle)
    · exact .inr hin
  · rintro (hone | hin)
    · push Not at hblock
      obtain ⟨b, hb, hlo, hup⟩ := hblock
      exact .inr ⟨b, hb, hlo, by rw [Iter.lastLength_of_lt hcut hone]; exact hup⟩
    · exact .inr hin

variable (hroot : Function.Injective E.primitives.headerRoot)
include hroot

/-- **One replay-back in intervals**: it is finished by the last one if the intervals fit, and
by an earlier one otherwise. -/
theorem replayBackSlots_intervals (h : Honest client blocks finalized decodes) (sort : SortBySlot E)
    (hc : c ∈ blocks) (hn : 2 ≤ n) (hsum : c.slot + n < 2 ^ 64) (hlt : c.slot < hi)
    (hhi : hi < 2 ^ 64) {s : State E.primitives} {r : ReplayBackState E.primitives}
    (hr : s.replayBack = some r) (hnewest : s.checkpoints.last = E.primitives.checkpoint c.header)
    (hspans : Spans c.header r.lastHeader (segment blocks (c.slot + 1) hi)) :
    ((hi < c.slot + n ∨ BlockInLast blocks n c.slot hi) →
      replayBackSlots client sort s (Iter.mk c.slot hi n).intervals =
        .ok (s.finishReplayBack
          ((segment blocks (c.slot + 1) hi).foldl ReplayBackState.replay r))) ∧
    (¬ (hi < c.slot + n ∨ BlockInLast blocks n c.slot hi) →
      replayBackSlots client sort s (Iter.mk c.slot hi n).intervals =
        .error (.program .notStarted)) := by
  induction hi using Nat.strong_induction_on generalizing s r with
  | _ hi ih =>
  by_cases hle : c.slot + n ≤ hi
  · have hcut : c.slot + 1 ≤ hi - (n - 1) := by omega
    have hsplit := segment_append h hcut (Nat.sub_le hi (n - 1))
    rw [hsplit] at hspans ⊢
    have hstep := replayBackSlotsInner_eq hroot h sort hr hnewest hspans (Nat.sub_le hi (n - 1))
      (batch_above sort)
    rw [Iter.intervals_of_le hn hsum hhi hle]
    by_cases hnil : segment blocks (c.slot + 1) (hi - (n - 1)) = []
    · -- nothing is left below the cut, and another interval follows
      have hno : ¬ (hi < c.slot + n ∨ BlockInLast blocks n c.slot hi) := by
        rintro (hgt | ⟨b, hb, hlo, hup⟩)
        · omega
        · have hge := segment_eq_nil_iff.mp hnil b hb hlo
          have hlast := Iter.add_lastLength_le hn hle
          omega
      refine ⟨fun hyes => absurd hyes hno, fun _ => ?_⟩
      obtain ⟨lo, rest, hcons, hlo⟩ := Iter.intervals_eq_cons hn hsum
        (show hi - (n - 1) < 2 ^ 64 by omega) hcut
      rw [if_pos hnil] at hstep
      rw [replayBackSlots, hstep, hcons]
      show replayBackSlots client sort _ _ = _
      rw [replayBackSlots, replayBackSlotsInner_of_none h sort rfl hlo]
      rfl
    · have hiff := fits_iff_below hn hle hcut (segment_eq_nil_iff.not.mp hnil)
      rw [if_neg hnil] at hstep
      have hrest := (replayHeaders_segment hspans (.inl rfl)).2
      have hr' : ({ s with replayBack := some ((segment blocks (hi - (n - 1)) hi).foldl
          ReplayBackState.replay r) } : State E.primitives).replayBack = some _ := rfl
      obtain ⟨hyes, hno⟩ := ih (hi - (n - 1)) (by omega) hcut (by omega) hr' hnewest hrest
      rw [replayBackSlots, hstep, hiff, List.foldl_append]
      exact ⟨hyes, hno⟩
  · have hgt := Nat.not_le.mp hle
    refine ⟨fun _ => ?_, fun hno => absurd (.inl hgt) hno⟩
    rw [← List.append_nil (segment blocks (c.slot + 1) hi)] at hspans
    have hstep := replayBackSlotsInner_eq hroot h sort hr hnewest hspans (Nat.le_of_lt hlt)
      (batch_last h sort hc hlt)
    rw [if_pos rfl] at hstep
    rw [Iter.intervals_of_lt hsum hlt hgt, replayBackSlots, hstep]
    rfl

/-- The same with the sizes for which the sum of `Iter::next` wraps: the headers of the first
interval cannot be requested. -/
theorem replayBackSlots_fits (h : Honest client blocks finalized decodes) (sort : SortBySlot E)
    (hc : c ∈ blocks) (hn : 2 ≤ n) (hn64 : n < 2 ^ 64) (hlt : c.slot < hi) (hhi : hi < 2 ^ 63)
    {s : State E.primitives} {r : ReplayBackState E.primitives} (hr : s.replayBack = some r)
    (hnewest : s.checkpoints.last = E.primitives.checkpoint c.header)
    (hspans : Spans c.header r.lastHeader (segment blocks (c.slot + 1) hi)) :
    (Fits blocks n c.slot hi →
      replayBackSlots client sort s (Iter.mk c.slot hi n).intervals =
        .ok (s.finishReplayBack
          ((segment blocks (c.slot + 1) hi).foldl ReplayBackState.replay r))) ∧
    (¬ Fits blocks n c.slot hi →
      ∃ e, replayBackSlots client sort s (Iter.mk c.slot hi n).intervals = .error e) := by
  by_cases hsum : c.slot + n < 2 ^ 64
  · obtain ⟨hyes, hno⟩ := replayBackSlots_intervals hroot h sort hc hn hsum hlt (by omega) hr
      hnewest hspans
    exact ⟨fun hfits => hyes hfits.2, fun hfits => ⟨_, hno fun hin => hfits ⟨hsum, hin⟩⟩⟩
  · refine ⟨fun hfits => absurd hfits.1 hsum, fun _ => ?_⟩
    obtain ⟨lo, rest, hcons, hlo⟩ := Iter.intervals_of_wraps hn64 (Nat.not_lt.mp hsum) hlt hhi
    rw [hcons, replayBackSlots]
    simp only [replayBackSlotsInner, headersOf, requestHeaders, if_pos hlo, Except.mapError, bind,
      Except.bind]
    exact ⟨_, rfl⟩

end

/-! ## one update -/

section

variable {P : Primitives}

/-- What the program stores after a replay-back. -/
def nextSnapshot (sn : Snapshot P) (f : Header P) (committee : Option (SyncCommitteeKeys P)) :
    Snapshot P where
  network := sn.network
  slot := f.slot
  syncCommitteeCurrent := if committee.isSome then sn.syncCommitteeNext else sn.syncCommitteeCurrent
  syncCommitteeNext := committee.getD sn.syncCommitteeNext

/-- The committee that an update brings, if the program accepts it. -/
def accepts (sn : Snapshot P) (u : Update P) (syncAggregate : Option (List Bool)) :
    Option (Option (SyncCommitteeKeys P)) :=
  match syncAggregate with
  | none => none
  | some bits =>
      match sn.verify u bits with
      | .ok (some _, committee) => some committee
      | _ => none

theorem accepts_eq_some {sn : Snapshot P} {u : Update P} {syncAggregate : Option (List Bool)}
    {committee : Option (SyncCommitteeKeys P)} (h : accepts sn u syncAggregate = some committee) :
    sn.slot < u.finalizedHeader.slot ∧ ∃ bits, syncAggregate = some bits ∧
      sn.verify u bits = .ok (some u.finalizedHeader, committee) := by
  cases syncAggregate with
  | none => contradiction
  | some bits =>
      simp only [accepts] at h
      split at h
      · next f committee' hverify =>
        injection h with h
        subst h
        obtain ⟨hf, hslot, -⟩ := verify_finalized hverify
        rw [hf] at hverify
        exact ⟨hslot, bits, rfl, hverify⟩
      · contradiction

/-- The state after a replay-back. -/
structure Replayed (s : State P) (f : Header P) (committee : Option (SyncCommitteeKeys P))
    (s' : State P) : Prop where
  replayBack : s'.replayBack = none
  finalizedHeader : s'.finalizedHeader = f
  newest : s'.checkpoints.last = P.checkpoint f
  snapshot : s'.snapshot = nextSnapshot s.snapshot f committee

theorem replayed_finishReplayBack (s : State P) {r : ReplayBackState P}
    (hfirst : r.checkpoints.first = P.checkpoint r.finalizedHeader) (chain : List (Header P)) :
    Replayed s r.finalizedHeader r.syncCommitteeNext
      (s.finishReplayBack (chain.foldl ReplayBackState.replay r)) where
  replayBack := rfl
  finalizedHeader := foldl_replay_finalizedHeader chain r
  newest := by
    rw [← hfirst, ← foldl_replay_first chain r]
    exact Checkpoints.last_pushAll _ _
  snapshot := by
    simp only [State.snapshot, State.finishReplayBack, nextSnapshot,
      foldl_replay_finalizedHeader, foldl_replay_syncCommitteeNext]

end

section

variable {client : BeaconClient E F} {blocks : List (Block E F)} {finalized : Block E F}
  {decodes : Block E F → Prop}

/-- `start` does what `process` would do right after it. -/
theorem replayUpdate_eq (sort : SortBySlot E) {s : State E.primitives} (hs : s.replayBack = none)
    {u : Update E.primitives} {syncAggregate : Option (List Bool)}
    {committee : Option (SyncCommitteeKeys E.primitives)}
    (haccepts : accepts s.snapshot u syncAggregate = some committee)
    {intervals : List (Nat × Nat)} (hne : intervals ≠ []) :
    replayUpdate client sort s intervals u syncAggregate =
      replayBackSlots client sort
        { s with replayBack := some (.new u.finalizedHeader committee) } intervals := by
  obtain ⟨-, bits, rfl, hverify⟩ := accepts_eq_some haccepts
  cases intervals with
  | nil => contradiction
  | cons interval intervals =>
      have hstart : replayBackSlotsStart client sort s interval u (some bits) =
          replayBackSlotsInner client sort
            { s with replayBack := some (.new u.finalizedHeader committee) } interval := by
        unfold replayBackSlotsStart replayBackSlotsInner
        cases headersOf client interval with
        | error e => rfl
        | ok headers =>
            simp only [bind, Except.bind, beginStart, hs, Option.isSome_none, Bool.false_eq_true,
              if_false, Except.mapError, finishStart, hverify, processReplayBack]
      rw [replayUpdate, replayBackSlots, hstart]

end

/-! ## all updates -/

/-- The program accepts the updates one after another, up to one that finalizes what the sync
update does, and else the sync update after them if it is newer. -/
def verified {P : Primitives} (args : Args P) : Snapshot P → List (UpdateData P) → Bool
  | sn, [] => decide (args.syncUpdate.finalizedHeader.slot ≤ sn.slot) ||
      (accepts sn args.syncUpdate args.syncAggregate).isSome
  | sn, data :: updates => data.signatureDecodes &&
      match accepts sn data.update data.syncAggregate with
      | none => false
      | some committee =>
          decide (data.update.finalizedHeader.slot = args.syncUpdate.finalizedHeader.slot) ||
            verified args (nextSnapshot sn data.update.finalizedHeader committee) updates

/-- The intervals of all updates fit, and the updates do not go past the sync update. -/
def AllFit (blocks : List (Block E F)) (args : Args E.primitives) :
    Nat → List (UpdateData E.primitives) → Prop
  | slotStart, [] => slotStart < args.syncUpdate.finalizedHeader.slot ∧
      Fits blocks args.sizeBatch slotStart args.syncUpdate.finalizedHeader.slot
  | slotStart, data :: updates =>
      Fits blocks args.sizeBatch slotStart data.update.finalizedHeader.slot ∧
        (data.update.finalizedHeader.slot = args.syncUpdate.finalizedHeader.slot ∨
          AllFit blocks args data.update.finalizedHeader.slot updates)

/-- The program is at a block of the chain, with no replay-back. -/
structure AtBlock (blocks : List (Block E F)) (s : State E.primitives) (c : Block E F) : Prop where
  mem : c ∈ blocks
  finalizedHeader : s.finalizedHeader = c.header
  newest : s.checkpoints.last = E.primitives.checkpoint c.header
  replayBack : s.replayBack = none

/-- A header of a block of the chain. -/
def OnBlocks (blocks : List (Block E F)) (header : Header E.primitives) : Prop :=
  ∃ b ∈ blocks, header = b.header

section

variable {client : BeaconClient E F} {blocks : List (Block E F)} {finalized : Block E F}
  {decodes : Block E F → Prop}

theorem Replayed.atBlock {s s' : State E.primitives} {f : Block E F} (hf : f ∈ blocks)
    {committee : Option (SyncCommitteeKeys E.primitives)}
    (h : Replayed s f.header committee s') : AtBlock blocks s' f :=
  ⟨hf, h.finalizedHeader, h.newest, h.replayBack⟩

theorem newIter_eq {slotStart slotEnd n : Nat} (hn : 2 ≤ n) (hlt : slotStart < slotEnd) :
    newIter (E := E) slotStart slotEnd n = .ok ⟨slotStart, slotEnd, n⟩ := by
  unfold newIter Iter.new
  rw [if_neg (by omega)]

theorem newIter_of_le {slotStart slotEnd n : Nat} (hle : slotEnd ≤ slotStart) :
    newIter (E := E) slotStart slotEnd n = .error (.emptyRange slotStart slotEnd) := by
  unfold newIter Iter.new
  rw [if_pos (.inr hle)]

variable (hroot : Function.Injective E.primitives.headerRoot)
  (hslots : ∀ b ∈ blocks, b.slot < 2 ^ 63)
include hroot hslots

/-- **One update**: it is replayed if the intervals fit, and a call fails otherwise. -/
theorem replayUpdate_fits (h : Honest client blocks finalized decodes) (sort : SortBySlot E)
    {n : Nat} (hn : 2 ≤ n) (hn64 : n < 2 ^ 64) {s : State E.primitives} {c f : Block E F}
    (hs : AtBlock blocks s c) (hf : f ∈ blocks) {u : Update E.primitives}
    (hu : u.finalizedHeader = f.header) {syncAggregate : Option (List Bool)}
    {committee : Option (SyncCommitteeKeys E.primitives)}
    (haccepts : accepts s.snapshot u syncAggregate = some committee) :
    (Fits blocks n c.slot f.slot →
      ∃ s', replayUpdate client sort s (Iter.mk c.slot f.slot n).intervals u syncAggregate = .ok s' ∧
        Replayed s f.header committee s') ∧
    (¬ Fits blocks n c.slot f.slot →
      ∃ e, replayUpdate client sort s (Iter.mk c.slot f.slot n).intervals u syncAggregate =
        .error e) := by
  have hlt : c.slot < f.slot := by
    have hslot : s.finalizedHeader.slot < u.finalizedHeader.slot := (accepts_eq_some haccepts).1
    rw [hu, hs.finalizedHeader] at hslot
    exact hslot
  rw [replayUpdate_eq sort hs.replayBack haccepts (Iter.intervals_ne_nil hlt), hu]
  have hr : ({ s with replayBack := some (.new f.header committee) } :
      State E.primitives).replayBack = some (.new f.header committee) := rfl
  obtain ⟨hyes, hno⟩ := replayBackSlots_fits hroot h sort hs.mem hn hn64 hlt (hslots f hf) hr
    hs.newest (spans_segment h hs.mem hf hlt)
  refine ⟨fun hfits => ⟨_, hyes hfits, ?_⟩, hno⟩
  have hfirst : (ReplayBackState.new f.header committee).checkpoints.first =
      E.primitives.checkpoint f.header := rfl
  have hreplayed := replayed_finishReplayBack
    { s with replayBack := some (.new f.header committee) } hfirst
    (segment blocks (c.slot + 1) f.slot)
  exact ⟨rfl, hreplayed.finalizedHeader, hreplayed.newest, hreplayed.snapshot⟩

/-- The sync update by itself is replayed exactly if it is newer and its intervals fit. -/
theorem replaySyncUpdate_iff (h : Honest client blocks finalized decodes) (sort : SortBySlot E)
    {args : Args E.primitives} (hn : 2 ≤ args.sizeBatch) (hn64 : args.sizeBatch < 2 ^ 64)
    {last : Block E F} (hlast : last ∈ blocks) (hsync : args.syncUpdate.finalizedHeader = last.header)
    {s : State E.primitives} {c : Block E F} (hs : AtBlock blocks s c)
    (hverified : verified args s.snapshot [] = true) :
    (∃ s', replayUpdates client sort args s c.slot [] = .ok s' ∧
      s'.finalizedHeader = args.syncUpdate.finalizedHeader) ↔ AllFit blocks args c.slot [] := by
  have hslot : s.snapshot.slot = c.slot := congrArg BlockHeader.slot hs.finalizedHeader
  have hlastSlot : args.syncUpdate.finalizedHeader.slot = last.slot :=
    congrArg BlockHeader.slot hsync
  simp only [replayUpdates, AllFit, hlastSlot]
  by_cases hlt : c.slot < last.slot
  · have haccepts : (accepts s.snapshot args.syncUpdate args.syncAggregate).isSome := by
      have hor : last.slot ≤ c.slot ∨
          (accepts s.snapshot args.syncUpdate args.syncAggregate).isSome := by
        simpa [verified, hlastSlot, hslot] using hverified
      exact hor.resolve_left (Nat.not_le.mpr hlt)
    obtain ⟨committee, haccepts⟩ := Option.isSome_iff_exists.mp haccepts
    obtain ⟨hyes, hno⟩ := replayUpdate_fits hroot hslots h sort hn hn64 hs hlast hsync haccepts
    rw [newIter_eq hn hlt]
    simp only [bind, Except.bind]
    constructor
    · rintro ⟨s', hs', -⟩
      refine ⟨hlt, not_not.mp fun hfits => ?_⟩
      obtain ⟨e, he⟩ := hno hfits
      rw [he] at hs'
      contradiction
    · rintro ⟨-, hfits⟩
      obtain ⟨s', hs', hreplayed⟩ := hyes hfits
      exact ⟨s', hs', hreplayed.finalizedHeader.trans hsync.symm⟩
  · rw [newIter_of_le (Nat.not_lt.mp hlt)]
    simp [bind, Except.bind, hlt]

/-- **All updates**: they are replayed, and the sync update with them, exactly if the intervals
of each fit. -/
theorem replayUpdates_iff (h : Honest client blocks finalized decodes) (sort : SortBySlot E)
    {args : Args E.primitives} (hn : 2 ≤ args.sizeBatch) (hn64 : args.sizeBatch < 2 ^ 64)
    (hsync : OnBlocks blocks args.syncUpdate.finalizedHeader)
    {updates : List (UpdateData E.primitives)}
    (hupdates : ∀ data ∈ updates, OnBlocks blocks data.update.finalizedHeader)
    {s : State E.primitives} {c : Block E F} (hs : AtBlock blocks s c)
    (hverified : verified args s.snapshot updates = true) :
    (∃ s', replayUpdates client sort args s c.slot updates = .ok s' ∧
      s'.finalizedHeader = args.syncUpdate.finalizedHeader) ↔ AllFit blocks args c.slot updates := by
  have hslot : s.snapshot.slot = c.slot := congrArg BlockHeader.slot hs.finalizedHeader
  obtain ⟨last, hlast, hsync⟩ := hsync
  have hlastSlot : args.syncUpdate.finalizedHeader.slot = last.slot :=
    congrArg BlockHeader.slot hsync
  induction updates generalizing s c with
  | nil => exact replaySyncUpdate_iff hroot hslots h sort hn hn64 hlast hsync hs hverified
  | cons data updates ih =>
      obtain ⟨f, hf, hdata⟩ := hupdates data List.mem_cons_self
      have hdataSlot : data.update.finalizedHeader.slot = f.slot := congrArg BlockHeader.slot hdata
      simp only [verified, Bool.and_eq_true] at hverified
      obtain ⟨hsignature, hverified⟩ := hverified
      cases haccepts : accepts s.snapshot data.update data.syncAggregate with
      | none => simp [haccepts] at hverified
      | some committee =>
          have hlt : c.slot < f.slot := by
            have hnewer := (accepts_eq_some haccepts).1
            rw [hslot, hdataSlot] at hnewer
            exact hnewer
          obtain ⟨hyes, hno⟩ := replayUpdate_fits hroot hslots h sort hn hn64 hs hf hdata haccepts
          simp only [replayUpdates, AllFit, hdataSlot, hlastSlot, newIter_eq hn hlt, hsignature,
            bind, Except.bind, Bool.not_true, Bool.false_eq_true, if_false]
          by_cases hfits : Fits blocks args.sizeBatch c.slot f.slot
          · obtain ⟨s', hs', hreplayed⟩ := hyes hfits
            simp only [hs', hfits, true_and]
            by_cases heq : f.slot = last.slot
            · have hsame : f = last := block_of_slot h hf hlast heq
              simp only [pure, Except.pure, heq, true_or, iff_true]
              exact ⟨s', rfl, by rw [hreplayed.finalizedHeader, hsame, hsync]⟩
            · have hrest : verified args s'.snapshot updates = true := by
                rw [hreplayed.snapshot, ← hdata]
                simpa [haccepts, hdataSlot, hlastSlot, heq] using hverified
              simp only [heq, false_or]
              exact ih (fun d hd => hupdates d (List.mem_cons_of_mem _ hd))
                (hreplayed.atBlock hf) hrest (congrArg BlockHeader.slot hreplayed.finalizedHeader)
          · obtain ⟨e, he⟩ := hno hfits
            simp [he, hfits]

end

/-! ## execute -/

/-- The arguments that `ReplayBackRequired` gives: the newest checkpoint and the open
replay-back of the program. -/
def required {P : Primitives} (s : State P) (syncUpdate : Update P)
    (syncAggregate : Option (List Bool)) (sizeBatch : Nat) : Args P :=
  { replayBack := s.replayBack.map fun r => (r.finalizedHeader.slot, r.lastHeader.slot)
    checkpoint := s.checkpoints.last
    syncUpdate
    sizeBatch
    syncAggregate }

/-- The program follows the chain: its finalized block is the newest checkpoint, and an open
replay-back is between that and another block. -/
structure Ready (blocks : List (Block E F)) (s : State E.primitives) : Prop where
  newest : ∃ c ∈ blocks, s.finalizedHeader = c.header ∧
    s.checkpoints.last = E.primitives.checkpoint c.header
  replayBack : ∀ r, s.replayBack = some r →
    r.checkpoints.first = E.primitives.checkpoint r.finalizedHeader ∧
      OnBlocks blocks r.finalizedHeader ∧
      ∃ b ∈ blocks, r.lastHeader = b.header ∧ s.checkpoints.last.1 < b.slot

/-- The slot from which the updates go on, and what the program stores then. -/
def startSlot {P : Primitives} (s : State P) : Nat :=
  match s.replayBack with
  | none => s.checkpoints.last.1
  | some r => r.finalizedHeader.slot

def startSnapshot {P : Primitives} (s : State P) : Snapshot P :=
  match s.replayBack with
  | none => s.snapshot
  | some r => nextSnapshot s.snapshot r.finalizedHeader r.syncCommitteeNext

/-- The intervals of the open replay-back fit. -/
def OpenFits (blocks : List (Block E F)) (n : Nat) (s : State E.primitives) : Prop :=
  ∀ r, s.replayBack = some r → Fits blocks n s.checkpoints.last.1 r.lastHeader.slot

section

variable {client : BeaconClient E F} {blocks : List (Block E F)} {finalized : Block E F}
  {decodes : Block E F → Prop}

/-- **The open replay-back**: it is finished if its intervals fit, and a call fails
otherwise. -/
theorem finishOpen_fits (hroot : Function.Injective E.primitives.headerRoot)
    (hslots : ∀ b ∈ blocks, b.slot < 2 ^ 63) (h : Honest client blocks finalized decodes)
    (sort : SortBySlot E) {n : Nat} (hn : 2 ≤ n) (hn64 : n < 2 ^ 64) {s : State E.primitives}
    (hs : Ready blocks s) (u : Update E.primitives) (syncAggregate : Option (List Bool)) :
    (OpenFits blocks n s → ∃ s' c,
      finishOpen client sort (required s u syncAggregate n) s = .ok (s', startSlot s) ∧
        AtBlock blocks s' c ∧ c.slot = startSlot s ∧ s'.snapshot = startSnapshot s) ∧
    (¬ OpenFits blocks n s →
      ∃ e, finishOpen client sort (required s u syncAggregate n) s = .error e) := by
  obtain ⟨c, hc, hfinalized, hnewest⟩ := hs.newest
  cases hr : s.replayBack with
  | none =>
      refine ⟨fun _ => ⟨s, c, ?_, ⟨hc, hfinalized, hnewest, hr⟩, ?_, ?_⟩, fun hno => ?_⟩
      · simp [finishOpen, required, hr, startSlot]
      · simp only [startSlot, hr, hnewest]
        rfl
      · simp only [startSnapshot, hr]
      · refine absurd (fun r hr' => ?_) hno
        rw [hr] at hr'
        contradiction
  | some r =>
      obtain ⟨hfirst, ⟨f, hf, hfheader⟩, b, hb, hlast, hlt⟩ := hs.replayBack r hr
      have hlastSlot : r.lastHeader.slot = b.slot := congrArg BlockHeader.slot hlast
      have hcslot : s.checkpoints.last.1 = c.slot := congrArg Prod.fst hnewest
      rw [hcslot] at hlt
      have hspans : Spans c.header r.lastHeader (segment blocks (c.slot + 1) b.slot) := by
        rw [hlast]
        exact spans_segment h hc hb hlt
      obtain ⟨hyes, hno⟩ := replayBackSlots_fits hroot h sort hc hn hn64 hlt (hslots b hb) hr
        hnewest hspans
      have hopen : OpenFits blocks n s ↔ Fits blocks n c.slot b.slot := by
        simp [OpenFits, hr, hcslot, hlastSlot]
      have hstart : startSlot s = r.finalizedHeader.slot := by simp only [startSlot, hr]
      rw [hopen, hstart]
      simp only [finishOpen, required, hr, Option.map_some, hcslot, hlastSlot, newIter_eq hn hlt,
        bind, Except.bind]
      refine ⟨fun hfits => ?_, fun hfits => ?_⟩
      · have hreplayed := replayed_finishReplayBack s hfirst (segment blocks (c.slot + 1) b.slot)
        rw [hyes hfits]
        refine ⟨_, f, rfl, ?_, ?_, ?_⟩
        · rw [hfheader] at hreplayed
          exact hreplayed.atBlock hf
        · exact (congrArg BlockHeader.slot hfheader).symm
        · simp only [startSnapshot, hr]
          exact hreplayed.snapshot
      · obtain ⟨e, he⟩ := hno hfits
        exact ⟨e, by rw [he]⟩

/-- **When the driver completes.**  With an honest node and updates that the program accepts in
turn, `execute` succeeds and leaves the program at the finalized header of the sync update
exactly if the intervals of the open replay-back and of every update fit. -/
theorem execute_completes_iff (client : BeaconClient E F)
    (getUpdates : Nat → Nat → Except AnyError (List (UpdateData E.primitives)))
    (sort : SortBySlot E) (blocks : List (Block E F)) (finalized : Block E F)
    {decodes : Block E F → Prop} (honest : Honest client blocks finalized decodes)
    (hroot : Function.Injective E.primitives.headerRoot)
    (hslots : ∀ b ∈ blocks, b.slot < 2 ^ 63) (s : State E.primitives) (hs : Ready blocks s)
    (sizeBatch : Nat) (hn : 2 ≤ sizeBatch) (hn64 : sizeBatch < 2 ^ 64)
    (syncUpdate : Update E.primitives) (syncAggregate : Option (List Bool))
    (hsync : OnBlocks blocks syncUpdate.finalizedHeader)
    (updates : List (UpdateData E.primitives))
    (hget : getUpdates (1 + calculatePeriod (startSlot s)) maxRequestLightClientUpdates =
      .ok updates)
    (hupdates : ∀ data ∈ updates, OnBlocks blocks data.update.finalizedHeader)
    (hverified : verified (required s syncUpdate syncAggregate sizeBatch) (startSnapshot s)
      updates = true) :
    (∃ s', execute client getUpdates sort (required s syncUpdate syncAggregate sizeBatch) s =
        .ok s' ∧ s'.finalizedHeader = syncUpdate.finalizedHeader) ↔
      OpenFits blocks sizeBatch s ∧
        AllFit blocks (required s syncUpdate syncAggregate sizeBatch) (startSlot s) updates := by
  obtain ⟨hyes, hno⟩ := finishOpen_fits hroot hslots honest sort hn hn64 hs syncUpdate syncAggregate
  by_cases hopen : OpenFits blocks sizeBatch s
  · obtain ⟨s', c, hfinish, hat, hslot, hsnapshot⟩ := hyes hopen
    rw [← hsnapshot] at hverified
    simp only [execute, hfinish, bind, Except.bind, hget, Except.mapError, hopen, true_and]
    rw [← hslot]
    exact replayUpdates_iff hroot hslots honest sort hn hn64 hsync hupdates hat hverified
  · obtain ⟨e, he⟩ := hno hopen
    simp [execute, he, bind, Except.bind, hopen]

end

/-- A driver with no updates before the sync update, whose intervals do not fit, ends with
`NotStarted`. -/
theorem execute_refused {client : BeaconClient E F} {blocks : List (Block E F)}
    {finalized : Block E F} {decodes : Block E F → Prop}
    (hroot : Function.Injective E.primitives.headerRoot)
    (h : Honest client blocks finalized decodes) (sort : SortBySlot E)
    {getUpdates : Nat → Nat → Except AnyError (List (UpdateData E.primitives))}
    {s : State E.primitives} (hget : getUpdates (1 + calculatePeriod s.checkpoints.last.1)
      maxRequestLightClientUpdates = .ok [])
    {c f : Block E F} (hs : AtBlock blocks s c) (hf : f ∈ blocks) {u : Update E.primitives}
    (hu : u.finalizedHeader = f.header) {syncAggregate : Option (List Bool)}
    {committee : Option (SyncCommitteeKeys E.primitives)}
    (haccepts : accepts s.snapshot u syncAggregate = some committee) {n : Nat} (hn : 2 ≤ n)
    (hsum : c.slot + n < 2 ^ 64) (hhi : f.slot < 2 ^ 64)
    (hcut : ¬ (f.slot < c.slot + n ∨ BlockInLast blocks n c.slot f.slot)) :
    execute client getUpdates sort (required s u syncAggregate n) s =
      .error (.program .notStarted) := by
  have hlt : c.slot < f.slot := by
    rw [not_or] at hcut
    omega
  have hslot : s.checkpoints.last.1 = c.slot := congrArg Prod.fst hs.newest
  have hlast : u.finalizedHeader.slot = f.slot := congrArg BlockHeader.slot hu
  rw [hslot] at hget
  have hr : ({ s with replayBack := some (.new f.header committee) } :
      State E.primitives).replayBack = some (.new f.header committee) := rfl
  have hno := (replayBackSlots_intervals hroot h sort hs.mem hn hsum hlt hhi hr hs.newest
    (spans_segment h hs.mem hf hlt)).2 hcut
  simp only [execute, finishOpen, required, hs.replayBack, Option.map_none, bind, Except.bind, hget,
    Except.mapError, replayUpdates, hslot, hlast, newIter_eq hn hlt]
  rw [replayUpdate_eq sort hs.replayBack haccepts (Iter.intervals_ne_nil hlt), hu]
  exact hno

/-! ## a replay-back on the ledger -/

theorem ledgerStart_atBlock : AtBlock fullBlocks ledgerStart (fullBlock 0) where
  mem := List.mem_cons_self
  finalizedHeader := by rw [ledgerStart_eq]; rfl
  newest := last_ledgerStart
  replayBack := by rw [ledgerStart_eq]

theorem ledgerStart_ready : Ready fullBlocks ledgerStart where
  newest := ⟨fullBlock 0, List.mem_cons_self, ledgerStart_atBlock.finalizedHeader,
    ledgerStart_atBlock.newest⟩
  replayBack := by
    intro r hr
    rw [ledgerStart_atBlock.replayBack] at hr
    contradiction

theorem fullBlocks_slots : ∀ b ∈ fullBlocks, b.slot < 2 ^ 63 := by
  simp only [fullBlocks, List.mem_cons, List.not_mem_nil, or_false]
  rintro b (rfl | rfl | rfl | rfl) <;> decide

/-- The update of the period after that of block 0: it finalizes block 2. -/
def ledgerUpdates : List (UpdateData ledgerPrimitives) := [⟨ledgerUpdate 3 true, true, ledgerBits⟩]

/-- With batches of 33 slots there is one interval for the update and one for the sync update. -/
theorem execute_completes_ledger : ∃ s',
    execute ledgerClient (fun _ _ => .ok ledgerUpdates) (sortBySlot ledgerSetting)
      (required ledgerStart (ledgerUpdate 4 true) ledgerBits 33) ledgerStart = .ok s' ∧
      s'.finalizedHeader = Digest.ledgerBlock 3 := by
  refine (execute_completes_iff ledgerClient (fun _ _ => .ok ledgerUpdates)
    (sortBySlot ledgerSetting) fullBlocks (fullBlock 3) honest_ledgerClient
    headerRoot_ledger_injective fullBlocks_slots ledgerStart ledgerStart_ready 33 (by decide)
    (by decide) (ledgerUpdate 4 true) ledgerBits ⟨fullBlock 3, by simp [fullBlocks], rfl⟩
    ledgerUpdates rfl ?_ (by rw [ledgerStart_eq]; decide +kernel)).mpr ⟨?_, ?_⟩
  · intro data hdata
    rw [List.mem_singleton.mp hdata]
    exact ⟨fullBlock 2, by simp [fullBlocks], rfl⟩
  · intro r hr
    rw [ledgerStart_atBlock.replayBack] at hr
    contradiction
  · have hslot : startSlot ledgerStart = 81888 := by rw [ledgerStart_eq]; rfl
    have h3 : (ledgerUpdate 3 true).finalizedHeader.slot = 81920 := rfl
    have h4 : (ledgerUpdate 4 true).finalizedHeader.slot = 81921 := rfl
    simp only [ledgerUpdates, AllFit, Fits, required, hslot, h3, h4]
    omega

/-- With batches of 17 slots the blocks at the slots 81920 and 81889 are requested first; the
replay-back is finished, and the last interval, of slot 81888, is refused. -/
theorem last_interval_refused :
    (Honest ledgerClient fullBlocks (fullBlock 3) fun _ => True) ∧ Ready fullBlocks ledgerStart ∧
      verified (required ledgerStart (ledgerUpdate 4 true) ledgerBits 17)
        (startSnapshot ledgerStart) [] = true ∧
      execute ledgerClient (fun _ _ => .ok []) (sortBySlot ledgerSetting)
        (required ledgerStart (ledgerUpdate 4 true) ledgerBits 17) ledgerStart =
          .error (.program .notStarted) := by
  refine ⟨honest_ledgerClient, ledgerStart_ready, by rw [ledgerStart_eq]; decide +kernel, ?_⟩
  have hat := ledgerStart_atBlock
  have haccepts : (accepts ledgerStart.snapshot (ledgerUpdate 4 true) ledgerBits).isSome = true := by
    rw [ledgerStart_eq]
    decide +kernel
  obtain ⟨committee, haccepts⟩ := Option.isSome_iff_exists.mp haccepts
  have h0 : (fullBlock 0).slot = 81888 := rfl
  have h3 : (fullBlock 3).slot = 81921 := rfl
  refine execute_refused headerRoot_ledger_injective honest_ledgerClient (sortBySlot ledgerSetting)
    rfl hat (show fullBlock 3 ∈ fullBlocks by simp [fullBlocks]) rfl haccepts (by decide)
    (by rw [h0]; omega) (by rw [h3]; omega) ?_
  rw [h0, h3]
  rintro (hgt | ⟨b, -, hlo, hup⟩)
  · omega
  · have hlast : Iter.lastLength 81888 81921 17 = 1 := by decide
    omega

end GearBridges.EthereumCheckpoints
