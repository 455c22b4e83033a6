import GearBridges.Lib.Transition
import Mathlib.Logic.Function.Basic

/-!
# Indexer.TempState

The indexer: a Gear and an Ethereum processor go through the events of their chains in
batches and share the tables of transfers and of completions.  A batch reads the completions
for its network at its start, collects changes in memory, and writes them at its end; a
status change of a transfer that the batch does not hold reads the transfer and writes it
back as a whole.

Nothing keeps the Gear processor from writing `Bridging` over `Completed` when it sees the
payment of a transfer after the Ethereum processor has completed it
(`payment_overwrites_completion`).  When a transfer is completed only after its payments were
saved, the two processors converge whatever their speeds (`processors_converge`).
-/

namespace GearBridges.Indexer

open Transition

/-! ## data -/

inductive Network where
  | ethereum
  | gear
deriving DecidableEq, Repr

inductive Status where
  | awaitingPayment
  | bridging
  | completed
  | failed
deriving DecidableEq, Repr

/-- The nonce of a transfer: `gearNonce` for transfers from Gear, the digest `ethNonce` for
transfers from Ethereum. -/
inductive Nonce where
  | gear (nonce : Nat)
  | eth (digest : Nat)
deriving DecidableEq

abbrev Timestamp := Nat

structure Transfer where
  destNetwork : Network
  status : Status
  completedAt : Option Timestamp
deriving DecidableEq

structure CompletedTransfer where
  destNetwork : Network
  timestamp : Timestamp
deriving DecidableEq

/-- The two tables.  Every transfer has its own nonce, and the nonce of a completion is
unique by the schema. -/
structure Store where
  transfers : Nonce → Option Transfer
  completed : Nonce → Option CompletedTransfer

/-- What a processor holds in memory during a batch. -/
structure TempState where
  transfers : Nonce → Option Transfer
  completed : Nonce → Option CompletedTransfer

namespace TempState

/-- `new`: the completions for the processor's network are read. -/
def new (network : Network) (store : Store) : TempState :=
  { transfers := fun _ => none
    completed := fun nonce => (store.completed nonce).filter fun c => c.destNetwork = network }

def transferRequested (self : TempState) (nonce : Nonce) (transfer : Transfer) : TempState :=
  { self with transfers := Function.update self.transfers nonce (some transfer) }

def transferCompleted (self : TempState) (network : Network) (nonce : Nonce) (ts : Timestamp) :
    TempState :=
  { self with completed := Function.update self.completed nonce (some ⟨network, ts⟩) }

/-- `transferStatus`: a transfer that the batch does not hold is read from the table. -/
def transferStatus (self : TempState) (store : Store) (nonce : Nonce) (status : Status) :
    TempState :=
  match self.transfers nonce with
  | some transfer => self.transferRequested nonce { transfer with status }
  | none =>
      match store.transfers nonce with
      | none => self
      | some transfer => self.transferRequested nonce { transfer with status }

/-- The transfers after those of the batch are saved. -/
def savedTransfers (self : TempState) (store : Store) (nonce : Nonce) : Option Transfer :=
  (self.transfers nonce).or (store.transfers nonce)

/-- `save`: the transfers of the batch, then the completions: a completion whose transfer is
in the table completes it and goes, another one is stored. -/
def save (self : TempState) (network : Network) (store : Store) : Store :=
  { transfers := fun nonce =>
      match self.completed nonce, self.savedTransfers store nonce with
      | some c, some transfer =>
          if transfer.destNetwork = network then
            some { transfer with status := .completed, completedAt := some c.timestamp }
          else some transfer
      | _, transfer => transfer
    completed := fun nonce =>
      match self.completed nonce with
      | none => store.completed nonce
      | some c =>
          match self.savedTransfers store nonce with
          | some transfer => if transfer.destNetwork = network then none else some c
          | none => some c }

end TempState

/-! ## the handlers -/

/-- The events that the Gear processor acts on. -/
inductive GearEvent where
  | bridgingRequested (nonce : Nat)
  | bridgingPaid (nonce : Nat)
  | relayed (digest : Nat) (timestamp : Timestamp)
deriving DecidableEq

/-- The events that the Ethereum processor acts on. -/
inductive EthEvent where
  | bridgingRequested (digest : Nat)
  | messageProcessed (nonce : Nat) (timestamp : Timestamp)
deriving DecidableEq

def gearHandler (store : Store) (tempState : TempState) : GearEvent → TempState
  | .bridgingRequested nonce =>
      tempState.transferRequested (.gear nonce) ⟨.ethereum, .awaitingPayment, none⟩
  | .bridgingPaid nonce => tempState.transferStatus store (.gear nonce) .bridging
  | .relayed digest timestamp => tempState.transferCompleted .gear (.eth digest) timestamp

def ethHandler (tempState : TempState) : EthEvent → TempState
  | .bridgingRequested digest =>
      tempState.transferRequested (.eth digest) ⟨.gear, .bridging, none⟩
  | .messageProcessed nonce timestamp =>
      tempState.transferCompleted .ethereum (.gear nonce) timestamp

/-! ## the two processors -/

/-- The events of both chains that have been processed, that is, whose batches are saved. -/
structure Progress where
  gear : List GearEvent
  eth : List EthEvent

/-- A batch in progress: its memory, its events so far, and what had been processed when it
began. -/
structure Batch (ε : Type) where
  tempState : TempState
  seen : List ε
  before : Progress

/-- A processor: the events to come, the batch in progress, and for each batch saved what had
been processed when it began. -/
structure Processor (ε : Type) where
  events : List ε
  batch : Option (Batch ε)
  runs : List Progress

structure World where
  store : Store
  processed : Progress
  gear : Processor GearEvent
  eth : Processor EthEvent

/-- The world after the Gear processor has saved a batch. -/
def World.gearSaved (w : World) (b : Batch GearEvent) : World :=
  { w with
    store := b.tempState.save .gear w.store
    processed := { w.processed with gear := w.processed.gear ++ b.seen }
    gear := { w.gear with batch := none, runs := b.before :: w.gear.runs } }

/-- The world after the Ethereum processor has saved a batch. -/
def World.ethSaved (w : World) (b : Batch EthEvent) : World :=
  { w with
    store := b.tempState.save .ethereum w.store
    processed := { w.processed with eth := w.processed.eth ++ b.seen }
    eth := { w.eth with batch := none, runs := b.before :: w.eth.runs } }

inductive Action where
  | gearNew
  | gearEvent
  | gearSave
  | ethNew
  | ethEvent
  | ethSave
deriving DecidableEq

def step (w : World) : Action → Option World
  | .gearNew =>
      match w.gear.batch with
      | some _ => none
      | none => some { w with
          gear := { w.gear with batch := some ⟨.new .gear w.store, [], w.processed⟩ } }
  | .gearEvent =>
      match w.gear.batch, w.gear.events with
      | some b, event :: events => some { w with
          gear := { w.gear with
            events
            batch := some { b with
              tempState := gearHandler w.store b.tempState event, seen := b.seen ++ [event] } } }
      | _, _ => none
  | .gearSave =>
      match w.gear.batch with
      | none => none
      | some b => some (w.gearSaved b)
  | .ethNew =>
      match w.eth.batch with
      | some _ => none
      | none => some { w with
          eth := { w.eth with batch := some ⟨.new .ethereum w.store, [], w.processed⟩ } }
  | .ethEvent =>
      match w.eth.batch, w.eth.events with
      | some b, event :: events => some { w with
          eth := { w.eth with
            events
            batch := some { b with
              tempState := ethHandler b.tempState event, seen := b.seen ++ [event] } } }
      | _, _ => none
  | .ethSave =>
      match w.eth.batch with
      | none => none
      | some b => some (w.ethSaved b)

/-- The time at which a message is processed, when the event is for this nonce. -/
def EthEvent.processedAt (nonce : Nat) : EthEvent → Option Timestamp
  | .messageProcessed nonce' timestamp => if nonce' = nonce then some timestamp else none
  | .bridgingRequested _ => none

/-- The events of the two chains: the bridge gives every request its own nonce, and a message
is processed once. -/
structure Chains where
  gear : List GearEvent
  eth : List EthEvent
  requestedOnce : ∀ nonce, gear.count (.bridgingRequested nonce) ≤ 1
  processedOnce : ∀ nonce, (eth.filterMap (EthEvent.processedAt nonce)).length ≤ 1

/-- The indexer starts with empty tables and the events of both chains before it. -/
def start (chains : Chains) : World :=
  { store := ⟨fun _ => none, fun _ => none⟩
    processed := ⟨[], []⟩
    gear := ⟨chains.gear, none, []⟩
    eth := ⟨chains.eth, none, []⟩ }

/-! ## convergence -/

/-- All three events of the transfer have been processed. -/
def Progress.All (p : Progress) (nonce : Nat) (ts : Timestamp) : Prop :=
  .bridgingRequested nonce ∈ p.gear ∧ .bridgingPaid nonce ∈ p.gear ∧
    .messageProcessed nonce ts ∈ p.eth

/-- The transfer is completed, with its completion time. -/
def CompletedAt (w : World) (nonce : Nat) (ts : Timestamp) : Prop :=
  ∃ t, w.store.transfers (.gear nonce) = some t ∧ t.status = .completed ∧ t.completedAt = some ts

/-- Once all three events have been processed and each processor has run one more batch, the
transfer is completed and its completion is gone. -/
def Converged (w : World) (nonce : Nat) : Prop :=
  ∀ ts, (∃ p ∈ w.gear.runs, p.All nonce ts) → (∃ p ∈ w.eth.runs, p.All nonce ts) →
    CompletedAt w nonce ts ∧ w.store.completed (.gear nonce) = none

/-- When the Ethereum processor completes the transfer, no payment of it is still to come and
the Gear batch in progress holds no change of it. -/
def ok (nonce : Nat) (w : World) : Action → Bool
  | .ethSave =>
      match w.eth.batch with
      | none => true
      | some b =>
          (b.tempState.completed (.gear nonce)).isNone ||
            (w.store.transfers (.gear nonce)).isNone ||
            (decide (.bridgingPaid nonce ∉ w.gear.events) &&
              w.gear.batch.all fun gb => (gb.tempState.transfers (.gear nonce)).isNone)
  | _ => true

def World.gearSeen (w : World) : List GearEvent := (w.gear.batch.map Batch.seen).getD []

def World.ethSeen (w : World) : List EthEvent := (w.eth.batch.map Batch.seen).getD []

/-- The transfer is not completed yet. -/
def Open (w : World) (nonce : Nat) : Prop :=
  ∀ t, w.store.transfers (.gear nonce) = some t → t.status ≠ .completed

/-- The Gear processor has nothing more to write for the transfer. -/
def Settled (w : World) (nonce : Nat) : Prop :=
  .bridgingPaid nonce ∉ w.gear.events ∧
    ∀ b, w.gear.batch = some b → b.tempState.transfers (.gear nonce) = none

/-- What is known of a completion: it has not been processed, it waits in the table, or it has
completed the transfer. -/
def Completion (w : World) (nonce : Nat) : Prop :=
  ((∀ ts, .messageProcessed nonce ts ∉ w.processed.eth) ∧
      w.store.completed (.gear nonce) = none ∧ Open w nonce) ∨
    ∃ ts, .messageProcessed nonce ts ∈ w.processed.eth ∧
      ((w.store.completed (.gear nonce) = some ⟨.ethereum, ts⟩ ∧ Open w nonce) ∨
        (w.store.completed (.gear nonce) = none ∧ CompletedAt w nonce ts ∧ Settled w nonce))

/-- The memory of a Gear batch. -/
structure GearBatch (w : World) (nonce : Nat) (b : Batch GearEvent) : Prop where
  completed : b.tempState.completed (.gear nonce) = none
  held : .bridgingRequested nonce ∈ b.seen → (b.tempState.transfers (.gear nonce)).isSome
  change : ∀ t, b.tempState.transfers (.gear nonce) = some t →
    t.destNetwork = .ethereum ∧ t.status ≠ .completed ∧
      (.bridgingRequested nonce ∈ b.seen ∨ (w.store.transfers (.gear nonce)).isSome)

/-- The memory of an Ethereum batch. -/
structure EthBatch (w : World) (nonce : Nat) (b : Batch EthEvent) : Prop where
  transfers : b.tempState.transfers (.gear nonce) = none
  seen : ∀ ts, .messageProcessed nonce ts ∈ b.seen →
    b.tempState.completed (.gear nonce) = some ⟨.ethereum, ts⟩
  unseen : (∀ ts, .messageProcessed nonce ts ∉ b.seen) →
    b.tempState.completed (.gear nonce) = w.store.completed (.gear nonce)
  before : (∀ e ∈ b.before.gear, e ∈ w.processed.gear) ∧ ∀ e ∈ b.before.eth, e ∈ w.processed.eth

/-- The invariant of the runs in which the transfer is completed after its payments. -/
structure Inv (nonce : Nat) (w : World) : Prop where
  requestedOnce :
    (w.processed.gear ++ w.gearSeen ++ w.gear.events).count (.bridgingRequested nonce) ≤ 1
  processedOnce :
    ((w.processed.eth ++ w.ethSeen ++ w.eth.events).filterMap
      (EthEvent.processedAt nonce)).length ≤ 1
  row : ∀ t, w.store.transfers (.gear nonce) = some t → t.destNetwork = .ethereum
  rowSaved : (w.store.transfers (.gear nonce)).isSome ↔
    .bridgingRequested nonce ∈ w.processed.gear
  gearBatch : ∀ b, w.gear.batch = some b → GearBatch w nonce b
  ethBatch : ∀ b, w.eth.batch = some b → EthBatch w nonce b
  completion : Completion w nonce
  ethRuns : ∀ p ∈ w.eth.runs, .bridgingRequested nonce ∈ p.gear → ∀ ts,
    .messageProcessed nonce ts ∈ p.eth → CompletedAt w nonce ts

/-! ## what a step keeps -/

variable {w w' : World} {nonce : Nat}

/-- A message is processed at one time only. -/
theorem Inv.processedAt_unique (h : Inv nonce w) {ts ts' : Timestamp}
    (hts : .messageProcessed nonce ts ∈ w.processed.eth ++ w.ethSeen ++ w.eth.events)
    (hts' : .messageProcessed nonce ts' ∈ w.processed.eth ++ w.ethSeen ++ w.eth.events) :
    ts = ts' := by
  have hmem : ∀ ts, EthEvent.messageProcessed nonce ts ∈
      w.processed.eth ++ w.ethSeen ++ w.eth.events →
      ts ∈ (w.processed.eth ++ w.ethSeen ++ w.eth.events).filterMap
        (EthEvent.processedAt nonce) := fun ts hts =>
    List.mem_filterMap.2 ⟨_, hts, by simp [EthEvent.processedAt]⟩
  have h1 := h.processedOnce
  obtain ⟨i, hi, rfl⟩ := List.mem_iff_getElem.1 (hmem ts hts)
  obtain ⟨j, hj, rfl⟩ := List.mem_iff_getElem.1 (hmem ts' hts')
  have hij : i = j := by omega
  subst hij
  rfl

/-- A request that has been processed does not come again. -/
theorem Inv.not_requested_again (h : Inv nonce w)
    (hr : .bridgingRequested nonce ∈ w.processed.gear) :
    .bridgingRequested nonce ∉ w.gear.events := by
  intro hr'
  have h1 := h.requestedOnce
  rw [List.count_append, List.count_append] at h1
  have h2 := List.one_le_count_iff.2 hr
  have h3 := List.one_le_count_iff.2 hr'
  omega

/-- A completed transfer has its completion processed and gone, and the Gear processor is done
with it. -/
theorem Inv.completed (h : Inv nonce w) {ts : Timestamp} (hc : CompletedAt w nonce ts) :
    .messageProcessed nonce ts ∈ w.processed.eth ∧ w.store.completed (.gear nonce) = none ∧
      Settled w nonce := by
  obtain ⟨t, ht, hst, hts⟩ := hc
  rcases h.completion with ⟨-, -, hopen⟩ | ⟨ts', hp, ⟨-, hopen⟩ | ⟨hnone, ⟨t', ht', -, hts'⟩, hset⟩⟩
  · exact absurd hst (hopen t ht)
  · exact absurd hst (hopen t ht)
  · rw [ht] at ht'
    injection ht' with ht'
    subst ht'
    rw [hts] at hts'
    injection hts' with hts'
    subst hts'
    exact ⟨hp, hnone, hset⟩

/-- A completion in the table is one for Ethereum. -/
theorem Inv.completed_destNetwork (h : Inv nonce w) {c : CompletedTransfer}
    (hc : w.store.completed (.gear nonce) = some c) : c.destNetwork = .ethereum := by
  rcases h.completion with ⟨-, hnone, -⟩ | ⟨ts, -, ⟨hsome, -⟩ | ⟨hnone, -⟩⟩
  · rw [hnone] at hc; contradiction
  · rw [hsome] at hc; injection hc with hc; subst hc; rfl
  · rw [hnone] at hc; contradiction

/-- What the Gear processor does within a batch keeps the invariant, when its events stay the
same and a completed transfer stays untouched. -/
theorem Inv.with_gear (h : Inv nonce w) (p : Processor GearEvent)
    (hevents : (p.batch.map Batch.seen).getD [] ++ p.events = w.gearSeen ++ w.gear.events)
    (hbatch : ∀ b, p.batch = some b → GearBatch w nonce b)
    (hset : (∃ ts, CompletedAt w nonce ts) → Settled w nonce →
      Settled { w with gear := p } nonce) : Inv nonce { w with gear := p } where
  requestedOnce := by
    have h1 := h.requestedOnce
    rw [List.append_assoc, ← hevents, ← List.append_assoc] at h1
    exact h1
  processedOnce := h.processedOnce
  row := h.row
  rowSaved := h.rowSaved
  gearBatch := fun b hb => ⟨(hbatch b hb).completed, (hbatch b hb).held, (hbatch b hb).change⟩
  ethBatch := fun b hb =>
    ⟨(h.ethBatch b hb).transfers, (h.ethBatch b hb).seen, (h.ethBatch b hb).unseen,
      (h.ethBatch b hb).before⟩
  completion := by
    rcases h.completion with hno | ⟨ts, hp, hw | ⟨hnone, hc, hs⟩⟩
    · exact .inl hno
    · exact .inr ⟨ts, hp, .inl hw⟩
    · exact .inr ⟨ts, hp, .inr ⟨hnone, hc, hset ⟨ts, hc⟩ hs⟩⟩
  ethRuns := h.ethRuns

/-- What the Ethereum processor does within a batch keeps the invariant, when its events stay
the same. -/
theorem Inv.with_eth (h : Inv nonce w) (p : Processor EthEvent)
    (hevents : (p.batch.map Batch.seen).getD [] ++ p.events = w.ethSeen ++ w.eth.events)
    (hruns : p.runs = w.eth.runs) (hbatch : ∀ b, p.batch = some b → EthBatch w nonce b) :
    Inv nonce { w with eth := p } where
  requestedOnce := h.requestedOnce
  processedOnce := by
    have h1 := h.processedOnce
    rw [List.append_assoc, ← hevents, ← List.append_assoc] at h1
    exact h1
  row := h.row
  rowSaved := h.rowSaved
  gearBatch := fun b hb =>
    ⟨(h.gearBatch b hb).completed, (h.gearBatch b hb).held, (h.gearBatch b hb).change⟩
  ethBatch := fun b hb =>
    ⟨(hbatch b hb).transfers, (hbatch b hb).seen, (hbatch b hb).unseen, (hbatch b hb).before⟩
  completion := h.completion
  ethRuns := by
    intro q hq
    exact h.ethRuns q (by rw [← hruns]; exact hq)

theorem Inv.gearNew (h : Inv nonce w) (hb : w.gear.batch = none) :
    Inv nonce { w with
      gear := { w.gear with batch := some ⟨.new .gear w.store, [], w.processed⟩ } } := by
  refine h.with_gear _ (by simp [World.gearSeen, hb]) (fun b hb => ?_) (fun _ hs => ⟨hs.1, ?_⟩)
  · injection hb with hb
    subst hb
    refine ⟨?_, fun hr => absurd hr List.not_mem_nil, fun t ht => ?_⟩
    · show (w.store.completed (.gear nonce)).filter _ = none
      rw [Option.filter_eq_none_iff]
      intro c hc
      rw [h.completed_destNetwork hc]
      decide
    · contradiction
  · intro b hb
    injection hb with hb
    subst hb
    rfl

theorem Inv.ethNew (h : Inv nonce w) (hb : w.eth.batch = none) :
    Inv nonce { w with
      eth := { w.eth with batch := some ⟨.new .ethereum w.store, [], w.processed⟩ } } := by
  refine h.with_eth _ (by simp [World.ethSeen, hb]) rfl (fun b hb => ?_)
  injection hb with hb
  subst hb
  refine ⟨rfl, fun ts hts => absurd hts List.not_mem_nil, fun _ => ?_, fun e he => he,
    fun e he => he⟩
  show (w.store.completed (.gear nonce)).filter _ = _
  cases hc : w.store.completed (.gear nonce) with
  | none => rfl
  | some c => simp [Option.filter, h.completed_destNetwork hc]

/-! ### an event of the Gear chain -/

theorem transferRequested_of_ne (self : TempState) {m n : Nonce} (hmn : n ≠ m) (t : Transfer) :
    (self.transferRequested m t).transfers n = self.transfers n :=
  Function.update_of_ne hmn _ _

theorem transferCompleted_of_ne (self : TempState) (network : Network) {m n : Nonce}
    (hmn : n ≠ m) (ts : Timestamp) :
    (self.transferCompleted network m ts).completed n = self.completed n :=
  Function.update_of_ne hmn _ _

theorem transferStatus_transfers_of_ne (self : TempState) (store : Store) {m n : Nonce}
    (hmn : n ≠ m) (status : Status) :
    (self.transferStatus store m status).transfers n = self.transfers n := by
  unfold TempState.transferStatus
  split
  · exact transferRequested_of_ne self hmn _
  · split
    · rfl
    · exact transferRequested_of_ne self hmn _

theorem transferStatus_completed (self : TempState) (store : Store) (m : Nonce)
    (status : Status) : (self.transferStatus store m status).completed = self.completed := by
  unfold TempState.transferStatus
  split
  · rfl
  · split <;> rfl

/-- A status change writes the transfer that the batch holds, or the one of the table. -/
theorem transferStatus_transfers (self : TempState) (store : Store) (n : Nonce)
    (status : Status) : (self.transferStatus store n status).transfers n =
      (self.savedTransfers store n).map fun t => { t with status } := by
  unfold TempState.transferStatus TempState.savedTransfers
  cases ht : self.transfers n with
  | some t => simp [TempState.transferRequested]
  | none =>
      cases hs : store.transfers n with
      | some t => simp [TempState.transferRequested]
      | none => simp [ht]

/-- The events of other transfers leave this one alone. -/
theorem gearHandler_transfers_of_ne (store : Store) (self : TempState) {e : GearEvent}
    (hr : e ≠ .bridgingRequested nonce) (hp : e ≠ .bridgingPaid nonce) :
    (gearHandler store self e).transfers (.gear nonce) = self.transfers (.gear nonce) := by
  cases e with
  | bridgingRequested n =>
      refine transferRequested_of_ne self ?_ _
      rintro ⟨rfl⟩
      exact hr rfl
  | bridgingPaid n =>
      refine transferStatus_transfers_of_ne self store ?_ _
      rintro ⟨rfl⟩
      exact hp rfl
  | relayed d ts => rfl

theorem gearHandler_completed (store : Store) (self : TempState) (e : GearEvent) :
    (gearHandler store self e).completed (.gear nonce) = self.completed (.gear nonce) := by
  cases e with
  | bridgingRequested n => rfl
  | bridgingPaid n =>
      show (self.transferStatus store _ _).completed _ = _
      rw [transferStatus_completed]
  | relayed d ts =>
      exact transferCompleted_of_ne self .gear (by simp) ts

theorem GearBatch.gearHandler {b : Batch GearEvent} (hb : GearBatch w nonce b)
    (hrow : ∀ t, w.store.transfers (.gear nonce) = some t → t.destNetwork = .ethereum)
    (e : GearEvent) :
    GearBatch w nonce { b with
      tempState := gearHandler w.store b.tempState e, seen := b.seen ++ [e] } := by
  refine ⟨(gearHandler_completed _ _ e).trans hb.completed, ?_, ?_⟩
  · intro hr
    by_cases her : e = .bridgingRequested nonce
    · subst her
      simp [Indexer.gearHandler, TempState.transferRequested]
    · have hseen : .bridgingRequested nonce ∈ b.seen := by
        rcases List.mem_append.1 hr with hr | hr
        · exact hr
        · exact absurd (List.mem_singleton.1 hr).symm her
      have hheld := hb.held hseen
      by_cases hep : e = .bridgingPaid nonce
      · subst hep
        show ((b.tempState.transferStatus w.store _ _).transfers _).isSome
        rw [transferStatus_transfers, TempState.savedTransfers]
        cases ht : b.tempState.transfers (.gear nonce) with
        | none => rw [ht] at hheld; contradiction
        | some t => rfl
      · show ((Indexer.gearHandler w.store b.tempState e).transfers _).isSome
        rw [gearHandler_transfers_of_ne _ _ her hep]
        exact hheld
  · intro t ht
    by_cases her : e = .bridgingRequested nonce
    · subst her
      simp only [Indexer.gearHandler, TempState.transferRequested, Function.update_self,
        Option.some.injEq] at ht
      subst ht
      exact ⟨rfl, by simp, .inl (by simp)⟩
    by_cases hep : e = .bridgingPaid nonce
    · subst hep
      change (b.tempState.transferStatus w.store _ _).transfers _ = some t at ht
      rw [transferStatus_transfers, TempState.savedTransfers, Option.map_eq_some_iff] at ht
      obtain ⟨t', ht', rfl⟩ := ht
      rcases Option.or_eq_some_iff.1 ht' with ht' | ⟨-, ht'⟩
      · obtain ⟨hd, -, hor⟩ := hb.change t' ht'
        exact ⟨hd, by simp, hor.imp_left (List.mem_append_left _)⟩
      · exact ⟨hrow t' ht', by simp, .inr (by simp [ht'])⟩
    · change (Indexer.gearHandler w.store b.tempState e).transfers _ = some t at ht
      rw [gearHandler_transfers_of_ne _ _ her hep] at ht
      obtain ⟨hd, hst, hor⟩ := hb.change t ht
      exact ⟨hd, hst, hor.imp_left (List.mem_append_left _)⟩

theorem Inv.gearEvent (h : Inv nonce w) {b : Batch GearEvent} {e : GearEvent}
    {es : List GearEvent} (hb : w.gear.batch = some b) (he : w.gear.events = e :: es) :
    Inv nonce { w with
      gear := { w.gear with
        events := es
        batch := some { b with
          tempState := gearHandler w.store b.tempState e, seen := b.seen ++ [e] } } } := by
  refine h.with_gear _ (by simp [World.gearSeen, hb, he]) (fun b' hb' => ?_) ?_
  · injection hb' with hb'
    subst hb'
    exact (h.gearBatch b hb).gearHandler h.row e
  · rintro ⟨ts, t, ht, -⟩ ⟨hpaid, hnone⟩
    have hreq := h.not_requested_again (h.rowSaved.1 (by simp [ht]))
    rw [he, List.mem_cons, not_or] at hpaid hreq
    refine ⟨hpaid.2, fun b' hb' => ?_⟩
    injection hb' with hb'
    subst hb'
    show (Indexer.gearHandler w.store b.tempState e).transfers _ = none
    rw [gearHandler_transfers_of_ne _ _ (Ne.symm hreq.1) (Ne.symm hpaid.1)]
    exact hnone b hb

/-! ### an event of the Ethereum chain -/

theorem Inv.ethEvent (h : Inv nonce w) {b : Batch EthEvent} {e : EthEvent} {es : List EthEvent}
    (hb : w.eth.batch = some b) (he : w.eth.events = e :: es) :
    Inv nonce { w with
      eth := { w.eth with
        events := es
        batch := some { b with
          tempState := ethHandler b.tempState e, seen := b.seen ++ [e] } } } := by
  refine h.with_eth _ (by simp [World.ethSeen, hb, he]) rfl (fun b' hb' => ?_)
  injection hb' with hb'
  subst hb'
  have hB := h.ethBatch b hb
  cases e with
  | bridgingRequested d =>
      have htr := transferRequested_of_ne b.tempState
        (show Nonce.gear nonce ≠ .eth d by simp) ⟨.gear, .bridging, none⟩
      refine ⟨htr.trans hB.transfers, fun ts hts => ?_, fun hno => ?_,
        hB.before⟩
      · exact hB.seen ts (by simpa using hts)
      · exact hB.unseen fun ts hts => hno ts (List.mem_append_left _ hts)
  | messageProcessed n ts =>
      by_cases hn : n = nonce
      · subst hn
        refine ⟨hB.transfers, fun ts' hts' => ?_, fun hno => ?_, hB.before⟩
        · have heq : ts' = ts := h.processedAt_unique
            (by
              simp only [World.ethSeen, hb, he, Option.map_some, Option.getD_some]
              rcases List.mem_append.1 hts' with hseen | hlast
              · exact List.mem_append_left _ (List.mem_append_right _ hseen)
              · rw [List.mem_singleton.1 hlast]
                simp)
            (by simp [he])
          subst heq
          exact Function.update_self _ _ _
        · exact absurd (by simp) (hno ts)
      · have hne : Nonce.gear nonce ≠ .gear n := by
          rintro ⟨rfl⟩
          exact hn rfl
        refine ⟨hB.transfers, fun ts' hts' => ?_, fun hno => ?_, hB.before⟩
        · have hseen : .messageProcessed nonce ts' ∈ b.seen := by
            rcases List.mem_append.1 hts' with hts' | hts'
            · exact hts'
            · simp only [List.mem_singleton, EthEvent.messageProcessed.injEq] at hts'
              exact absurd hts'.1.symm hn
          exact (transferCompleted_of_ne _ _ hne _).trans (hB.seen ts' hseen)
        · exact (transferCompleted_of_ne _ _ hne _).trans
            (hB.unseen fun ts' hts' => hno ts' (List.mem_append_left _ hts'))

/-! ### the end of a batch -/

theorem save_transfers_of_none (self : TempState) (network : Network) (store : Store) {n : Nonce}
    (hn : self.completed n = none) :
    (self.save network store).transfers n = self.savedTransfers store n := by
  simp [TempState.save, hn]

theorem save_completed_of_none (self : TempState) (network : Network) (store : Store) {n : Nonce}
    (hn : self.completed n = none) :
    (self.save network store).completed n = store.completed n := by
  simp [TempState.save, hn]

/-- Saving a batch keeps the destination of a transfer. -/
theorem save_destNetwork (self : TempState) (network : Network) (store : Store) {n : Nonce}
    {t : Transfer} (ht : (self.save network store).transfers n = some t) :
    ∃ t', self.savedTransfers store n = some t' ∧ t'.destNetwork = t.destNetwork := by
  simp only [TempState.save] at ht
  split at ht
  · next t' _ hsaved =>
    split at ht
    · injection ht with ht
      subst ht
      exact ⟨t', hsaved, rfl⟩
    · injection ht with ht
      subst ht
      exact ⟨_, hsaved, rfl⟩
  · exact ⟨t, ht, rfl⟩

/-- Saving a Gear batch leaves a transfer that the Gear processor is done with as it is. -/
theorem Inv.gearSave_of_settled (h : Inv nonce w) {b : Batch GearEvent}
    (hb : w.gear.batch = some b) (hs : Settled w nonce) :
    (b.tempState.save .gear w.store).transfers (.gear nonce) =
      w.store.transfers (.gear nonce) := by
  rw [save_transfers_of_none _ _ _ (h.gearBatch b hb).completed, TempState.savedTransfers,
    hs.2 b hb, Option.none_or]

theorem Inv.gearSave_completedAt (h : Inv nonce w) {b : Batch GearEvent}
    (hb : w.gear.batch = some b) {ts : Timestamp} (hc : CompletedAt w nonce ts) :
    CompletedAt (w.gearSaved b) nonce ts := by
  obtain ⟨t, ht, hst⟩ := hc
  exact ⟨t, (h.gearSave_of_settled hb (h.completed ⟨t, ht, hst⟩).2.2).trans ht, hst⟩

theorem Inv.gearSave (h : Inv nonce w) {b : Batch GearEvent} (hb : w.gear.batch = some b) :
    Inv nonce (w.gearSaved b) := by
  have hB := h.gearBatch b hb
  have htr : (b.tempState.save .gear w.store).transfers (.gear nonce) =
      (b.tempState.transfers (.gear nonce)).or (w.store.transfers (.gear nonce)) :=
    save_transfers_of_none _ _ _ hB.completed
  have hco : (b.tempState.save .gear w.store).completed (.gear nonce) =
      w.store.completed (.gear nonce) := save_completed_of_none _ _ _ hB.completed
  have hopen : Open w nonce → ∀ t, (b.tempState.save .gear w.store).transfers (.gear nonce) =
      some t → t.status ≠ .completed := by
    intro ho t ht
    rw [htr] at ht
    rcases Option.or_eq_some_iff.1 ht with ht | ⟨-, ht⟩
    · exact (hB.change t ht).2.1
    · exact ho t ht
  refine
    { requestedOnce := ?_
      processedOnce := h.processedOnce
      row := fun t ht => ?_
      rowSaved := ?_
      gearBatch := fun b' hb' => by contradiction
      ethBatch := fun b' hb' => ?_
      completion := ?_
      ethRuns := fun p hp hr ts hts => h.gearSave_completedAt hb (h.ethRuns p hp hr ts hts) }
  · have h1 := h.requestedOnce
    simp only [World.gearSeen, hb, Option.map_some, Option.getD_some] at h1
    simpa [World.gearSeen, World.gearSaved] using h1
  · obtain ⟨t', ht', hd⟩ := save_destNetwork _ _ _ ht
    rw [← hd]
    rcases Option.or_eq_some_iff.1 ht' with ht' | ⟨-, ht'⟩
    · exact (hB.change t' ht').1
    · exact h.row t' ht'
  · show ((b.tempState.save .gear w.store).transfers (.gear nonce)).isSome ↔
      _ ∈ w.processed.gear ++ b.seen
    rw [htr, Option.isSome_or, Bool.or_eq_true, List.mem_append, h.rowSaved]
    refine ⟨fun hor => ?_, fun hor => ?_⟩
    · rcases hor with hbt | hp
      · obtain ⟨t, ht⟩ := Option.isSome_iff_exists.1 hbt
        rcases (hB.change t ht).2.2 with hseen | hrow
        · exact .inr hseen
        · exact .inl (h.rowSaved.1 hrow)
      · exact .inl hp
    · rcases hor with hp | hseen
      · exact .inr hp
      · exact .inl (hB.held hseen)
  · have hE := h.ethBatch b' hb'
    exact ⟨hE.transfers, hE.seen, fun hno => (hE.unseen hno).trans hco.symm,
      fun e he => List.mem_append_left _ (hE.before.1 e he), hE.before.2⟩
  · rcases h.completion with ⟨hno, hnone, ho⟩ | ⟨ts, hp, ⟨hsome, ho⟩ | ⟨hnone, hc, hs⟩⟩
    · exact .inl ⟨hno, hco.trans hnone, hopen ho⟩
    · exact .inr ⟨ts, hp, .inl ⟨hco.trans hsome, hopen ho⟩⟩
    · exact .inr ⟨ts, hp, .inr ⟨hco.trans hnone, h.gearSave_completedAt hb hc, hs.1,
        fun b' hb' => by contradiction⟩⟩

/-- What saving an Ethereum batch does to the transfer: nothing when its completion is not
known, or the completion is stored, or the transfer is completed. -/
theorem Inv.ethSave_cases (h : Inv nonce w) {b : Batch EthEvent} (hb : w.eth.batch = some b) :
    (b.tempState.completed (.gear nonce) = none ∧
      (w.ethSaved b).store.transfers (.gear nonce) = w.store.transfers (.gear nonce) ∧
      (w.ethSaved b).store.completed (.gear nonce) = none ∧
      w.store.completed (.gear nonce) = none ∧ ∀ ts, .messageProcessed nonce ts ∉ b.seen) ∨
    ∃ ts, b.tempState.completed (.gear nonce) = some ⟨.ethereum, ts⟩ ∧
      .messageProcessed nonce ts ∈ w.processed.eth ++ b.seen ∧
      ((w.store.transfers (.gear nonce) = none ∧
          (w.ethSaved b).store.transfers (.gear nonce) = none ∧
          (w.ethSaved b).store.completed (.gear nonce) = some ⟨.ethereum, ts⟩) ∨
        ((w.store.transfers (.gear nonce)).isSome ∧ CompletedAt (w.ethSaved b) nonce ts ∧
          (w.ethSaved b).store.completed (.gear nonce) = none)) := by
  have hB := h.ethBatch b hb
  have hsaved : b.tempState.savedTransfers w.store (.gear nonce) =
      w.store.transfers (.gear nonce) := by
    rw [TempState.savedTransfers, hB.transfers, Option.none_or]
  cases hc : b.tempState.completed (.gear nonce) with
  | none =>
      have hno : ∀ ts, .messageProcessed nonce ts ∉ b.seen := by
        intro ts hts
        rw [hB.seen ts hts] at hc
        contradiction
      have hstore := (hB.unseen hno).symm.trans hc
      exact .inl ⟨rfl, (save_transfers_of_none _ _ _ hc).trans hsaved,
        (save_completed_of_none _ _ _ hc).trans hstore, hstore, hno⟩
  | some c =>
      have hts : ∃ ts, c = ⟨.ethereum, ts⟩ ∧ .messageProcessed nonce ts ∈
          w.processed.eth ++ b.seen := by
        by_cases hno : ∀ ts, .messageProcessed nonce ts ∉ b.seen
        · have hstore := (hB.unseen hno).symm.trans hc
          rcases h.completion with ⟨-, hnone, -⟩ | ⟨ts, hp, ⟨hsome, -⟩ | ⟨hnone, -⟩⟩
          · rw [hnone] at hstore; contradiction
          · rw [hsome] at hstore
            injection hstore with hstore
            exact ⟨ts, hstore.symm, List.mem_append_left _ hp⟩
          · rw [hnone] at hstore; contradiction
        · push Not at hno
          obtain ⟨ts, hts⟩ := hno
          rw [hB.seen ts hts] at hc
          injection hc with hc
          exact ⟨ts, hc.symm, List.mem_append_right _ hts⟩
      obtain ⟨ts, rfl, hp⟩ := hts
      refine .inr ⟨ts, rfl, hp, ?_⟩
      cases hrow : w.store.transfers (.gear nonce) with
      | none =>
          refine .inl ⟨rfl, ?_, ?_⟩
          · simp [World.ethSaved, TempState.save, hc, hsaved, hrow]
          · simp [World.ethSaved, TempState.save, hc, hsaved, hrow]
      | some t =>
          have hd := h.row t hrow
          refine .inr ⟨rfl, ⟨{ t with status := .completed, completedAt := some ts }, ?_, rfl,
            rfl⟩, ?_⟩
          · simp [World.ethSaved, TempState.save, hc, hsaved, hrow, hd]
          · simp [World.ethSaved, TempState.save, hc, hsaved, hrow, hd]

/-- What the guard says of a batch that is saved. -/
theorem settled_of_ok {b : Batch EthEvent} (hb : w.eth.batch = some b)
    (hok : ok nonce w .ethSave = true) (hc : (b.tempState.completed (.gear nonce)).isSome)
    (hrow : (w.store.transfers (.gear nonce)).isSome) : Settled w nonce := by
  simp only [ok, hb, Option.isNone_eq_false_iff.2 hc, Option.isNone_eq_false_iff.2 hrow,
    Bool.false_or, Bool.and_eq_true, decide_eq_true_eq] at hok
  refine ⟨hok.1, fun gb hgb => ?_⟩
  have hall := hok.2
  rw [hgb, Option.all_some] at hall
  exact Option.isNone_iff_eq_none.1 hall

/-- The message that the batch in progress has seen is the one processed before. -/
theorem Inv.processed_eq (h : Inv nonce w) {b : Batch EthEvent} (hb : w.eth.batch = some b)
    {ts ts' : Timestamp} (hp : .messageProcessed nonce ts' ∈ w.processed.eth ++ b.seen)
    (hts : .messageProcessed nonce ts ∈ w.processed.eth) : ts' = ts := by
  refine h.processedAt_unique ?_ (List.mem_append_left _ (List.mem_append_left _ hts))
  simp only [World.ethSeen, hb, Option.map_some, Option.getD_some]
  exact List.mem_append_left _ hp

theorem Inv.ethSave_completedAt (h : Inv nonce w) {b : Batch EthEvent} (hb : w.eth.batch = some b)
    {ts : Timestamp} (hc : CompletedAt w nonce ts) : CompletedAt (w.ethSaved b) nonce ts := by
  rcases h.ethSave_cases hb with ⟨-, htr, -⟩ | ⟨ts', -, hp, ⟨hnone, -⟩ | ⟨-, hc', -⟩⟩
  · obtain ⟨t, ht, hst⟩ := hc
    exact ⟨t, htr.trans ht, hst⟩
  · obtain ⟨t, ht, -⟩ := hc
    rw [hnone] at ht
    contradiction
  · rw [← h.processed_eq hb hp (h.completed hc).1]
    exact hc'

theorem Inv.ethSave_completion (h : Inv nonce w) {b : Batch EthEvent} (hb : w.eth.batch = some b)
    (hok : ok nonce w .ethSave = true) : Completion (w.ethSaved b) nonce := by
  rcases h.ethSave_cases hb with
    ⟨-, htr, hco, hnone, hno⟩ | ⟨ts, hc, hp, ⟨-, htr, hco⟩ | ⟨hrow, hat, hco⟩⟩
  · rcases h.completion with ⟨hno', -, ho⟩ | ⟨ts, hp, ⟨hsome, -⟩ | ⟨-, hat, hs⟩⟩
    · refine .inl ⟨fun ts hts => ?_, hco, fun t ht => ho t (htr.symm.trans ht)⟩
      rcases List.mem_append.1 hts with hts | hts
      · exact hno' ts hts
      · exact hno ts hts
    · rw [hnone] at hsome
      contradiction
    · exact .inr ⟨ts, List.mem_append_left _ hp, .inr ⟨hco, h.ethSave_completedAt hb hat, hs⟩⟩
  · refine .inr ⟨ts, hp, .inl ⟨hco, fun t ht => ?_⟩⟩
    rw [htr] at ht
    contradiction
  · have hs : Settled w nonce := settled_of_ok hb hok (by rw [hc]; rfl) hrow
    exact .inr ⟨ts, hp, .inr ⟨hco, hat, hs⟩⟩

/-- A batch begun after the request was saved and the message processed completes the transfer
or finds it completed. -/
theorem Inv.ethSave_runs (h : Inv nonce w) {b : Batch EthEvent} (hb : w.eth.batch = some b)
    {ts : Timestamp} (hr : .bridgingRequested nonce ∈ b.before.gear)
    (hts : .messageProcessed nonce ts ∈ b.before.eth) : CompletedAt (w.ethSaved b) nonce ts := by
  have hB := h.ethBatch b hb
  have hrow := h.rowSaved.2 (hB.before.1 _ hr)
  have hts' := hB.before.2 _ hts
  rcases h.ethSave_cases hb with
    ⟨-, -, -, hnone, -⟩ | ⟨ts', -, hp, ⟨hnone, -⟩ | ⟨-, hat, -⟩⟩
  · rcases h.completion with ⟨hno', -⟩ | ⟨ts', hp, ⟨hsome, -⟩ | ⟨-, hat, -⟩⟩
    · exact absurd hts' (hno' ts)
    · rw [hnone] at hsome
      contradiction
    · rw [← h.processed_eq hb (List.mem_append_left _ hp) hts']
      exact h.ethSave_completedAt hb hat
  · rw [hnone] at hrow
    contradiction
  · rw [← h.processed_eq hb hp hts']
    exact hat

theorem Inv.ethSave (h : Inv nonce w) {b : Batch EthEvent} (hb : w.eth.batch = some b)
    (hok : ok nonce w .ethSave = true) : Inv nonce (w.ethSaved b) := by
  have hB := h.ethBatch b hb
  have hsome : ((w.ethSaved b).store.transfers (.gear nonce)).isSome =
      (w.store.transfers (.gear nonce)).isSome := by
    rcases h.ethSave_cases hb with
      ⟨-, htr, -⟩ | ⟨ts, -, -, ⟨hnone, hnone', -⟩ | ⟨hrow, ⟨t, ht, -⟩, -⟩⟩
    · rw [htr]
    · rw [hnone, hnone']
    · rw [ht, hrow, Option.isSome_some]
  refine
    { requestedOnce := h.requestedOnce
      processedOnce := ?_
      row := fun t ht => ?_
      rowSaved := by rw [hsome]; exact h.rowSaved
      gearBatch := fun gb hgb => ?_
      ethBatch := fun b' hb' => by contradiction
      completion := h.ethSave_completion hb hok
      ethRuns := fun p hp hr ts hts => ?_ }
  · have h1 := h.processedOnce
    simp only [World.ethSeen, hb, Option.map_some, Option.getD_some] at h1
    simpa [World.ethSeen, World.ethSaved] using h1
  · obtain ⟨t', ht', hd⟩ := save_destNetwork _ _ _ ht
    rw [TempState.savedTransfers, hB.transfers, Option.none_or] at ht'
    exact hd ▸ h.row t' ht'
  · have hG := h.gearBatch gb hgb
    exact ⟨hG.completed, hG.held, fun t ht => by rw [hsome]; exact hG.change t ht⟩
  · rcases List.mem_cons.1 hp with rfl | hp
    · exact h.ethSave_runs hb hr hts
    · exact h.ethSave_completedAt hb (h.ethRuns p hp hr ts hts)

/-! ## whole runs -/

theorem inv_start (chains : Chains) (nonce : Nat) : Inv nonce (start chains) where
  requestedOnce := chains.requestedOnce nonce
  processedOnce := chains.processedOnce nonce
  row := fun t ht => by contradiction
  rowSaved := by simp [start]
  gearBatch := fun b hb => by contradiction
  ethBatch := fun b hb => by contradiction
  completion := .inl ⟨fun ts => List.not_mem_nil, rfl, fun t ht => by contradiction⟩
  ethRuns := fun p hp => absurd hp List.not_mem_nil

/-- A step keeps the invariant and a completed transfer. -/
theorem Inv.step (h : Inv nonce w) {a : Action} (hok : ok nonce w a = true)
    (hs : step w a = some w') :
    Inv nonce w' ∧ ∀ ts, CompletedAt w nonce ts → CompletedAt w' nonce ts := by
  cases a with
  | gearNew =>
      simp only [Indexer.step] at hs
      split at hs
      · contradiction
      · next hb =>
        injection hs with hs
        subst hs
        exact ⟨h.gearNew hb, fun ts hc => hc⟩
  | gearEvent =>
      simp only [Indexer.step] at hs
      split at hs
      · next hb he =>
        injection hs with hs
        subst hs
        exact ⟨h.gearEvent hb he, fun ts hc => hc⟩
      · contradiction
  | gearSave =>
      simp only [Indexer.step] at hs
      split at hs
      · contradiction
      · next hb =>
        injection hs with hs
        subst hs
        exact ⟨h.gearSave hb, fun ts hc => h.gearSave_completedAt hb hc⟩
  | ethNew =>
      simp only [Indexer.step] at hs
      split at hs
      · contradiction
      · next hb =>
        injection hs with hs
        subst hs
        exact ⟨h.ethNew hb, fun ts hc => hc⟩
  | ethEvent =>
      simp only [Indexer.step] at hs
      split at hs
      · next hb he =>
        injection hs with hs
        subst hs
        exact ⟨h.ethEvent hb he, fun ts hc => hc⟩
      · contradiction
  | ethSave =>
      simp only [Indexer.step] at hs
      split at hs
      · contradiction
      · next hb =>
        injection hs with hs
        subst hs
        exact ⟨h.ethSave hb hok, fun ts hc => h.ethSave_completedAt hb hc⟩

theorem inv_of_reachable {chains : Chains}
    (hr : Reachable step (fun w a => ok nonce w a = true) (· = start chains) w) :
    Inv nonce w := by
  refine Reachable.invariant (I := Inv nonce) (fun s hs => ?_) (fun s a s' h hok hs => ?_) hr
  · rw [show s = start chains from hs]
    exact inv_start chains nonce
  · exact (h.step hok hs).1

/-- **The two processors converge**: in a run in which the transfer is completed only after its
payments, it ends up completed at the time its message was processed, nothing of its
completion is left, and no step takes the completion back. -/
theorem processors_converge (chains : Chains) (nonce : Nat) (w : World)
    (hr : Reachable step (fun w a => ok nonce w a = true) (· = start chains) w) :
    Converged w nonce ∧ ∀ (a : Action) (w' : World), ok nonce w a = true → step w a = some w' →
      ∀ ts, CompletedAt w nonce ts → CompletedAt w' nonce ts := by
  have h := inv_of_reachable hr
  refine ⟨?_, fun a w' hok hs => (h.step hok hs).2⟩
  rintro ts - ⟨p, hp, hreq, -, hproc⟩
  have hc := h.ethRuns p hp hreq ts hproc
  exact ⟨hc, (h.completed hc).2.1⟩

instance (p : Progress) (nonce : Nat) (ts : Timestamp) : Decidable (p.All nonce ts) :=
  inferInstanceAs (Decidable (_ ∧ _ ∧ _))

/-- Transfer 5 is requested, paid for and processed at time 30. -/
def sampleChains : Chains where
  gear := [.bridgingRequested 5, .bridgingPaid 5]
  eth := [.messageProcessed 5 30]
  requestedOnce := by
    intro nonce
    by_cases h5 : 5 = nonce
    · simp [h5]
    · simp [h5]
  processedOnce := by
    intro nonce
    simp only [List.filterMap_cons, EthEvent.processedAt, List.filterMap_nil]
    split <;> simp

/-- Each processor has run a batch since all three events were processed. -/
def World.ready (w : World) (nonce : Nat) (ts : Timestamp) : Bool :=
  w.gear.runs.any (fun p => p.All nonce ts) && w.eth.runs.any (fun p => p.All nonce ts)

theorem exists_of_ready {ts : Timestamp} (h : w.ready nonce ts = true) :
    (∃ p ∈ w.gear.runs, p.All nonce ts) ∧ ∃ p ∈ w.eth.runs, p.All nonce ts := by
  simpa [World.ready] using h

/-- The Ethereum processor is ahead: it stores the completion, and completes the transfer when
the request and the payment are in. -/
theorem processors_converge_thirty :
    ∃ w, Reachable step (fun w a => ok 5 w a = true) (· = start sampleChains) w ∧
      CompletedAt w 5 30 ∧ w.store.completed (.gear 5) = none := by
  obtain ⟨w, hr, hw⟩ := @exists_reachable_of_exec _ _ step (fun w a => ok 5 w a = true) _
    (· = start sampleChains) _ rfl
    [.ethNew, .ethEvent, .ethSave, .gearNew, .gearEvent, .gearEvent, .gearSave, .ethNew, .ethSave,
      .gearNew, .gearSave]
    (fun w => w.ready 5 30) (by decide +kernel)
  obtain ⟨hg, he⟩ := exists_of_ready hw
  exact ⟨w, hr, (processors_converge sampleChains 5 w hr).1 30 hg he⟩

/-- The Ethereum processor completes the transfer before the Gear processor has seen its
payment: the payment writes `Bridging` over `Completed`, and it stays. -/
theorem payment_overwrites_completion :
    ¬ ∀ (chains : Chains) (nonce : Nat) (w : World),
      Reachable step free (· = start chains) w → Converged w nonce := by
  intro h
  obtain ⟨w, hr, hw⟩ := @exists_reachable_of_exec _ _ step free _ (· = start sampleChains) _ rfl
    [.gearNew, .gearEvent, .gearSave, .ethNew, .ethEvent, .ethSave, .gearNew, .gearEvent, .gearSave,
      .gearNew, .gearSave, .ethNew, .ethSave]
    (fun w => w.ready 5 30 && ((w.store.transfers (.gear 5)).map (·.status) == some .bridging))
    (by decide +kernel)
  rw [Bool.and_eq_true] at hw
  obtain ⟨hg, he⟩ := exists_of_ready hw.1
  obtain ⟨⟨t, ht, hst, -⟩, -⟩ := h sampleChains 5 w hr 30 hg he
  have hb := hw.2
  rw [ht, Option.map_some, hst] at hb
  contradiction

end GearBridges.Indexer
