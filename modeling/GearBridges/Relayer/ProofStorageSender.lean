import GearBridges.ProofStorage.Program

/-!
# Relayer.ProofStorageSender

The task that sends validator set proofs to the proof storage program
(`message_sender_inner`), together with the chain and the program.  The sender takes the
messages of `update_inner` from a channel, submits them, and drops a message when the chain
reports that it was dispatched with status `Success`.

The program refuses a proof with an ordinary reply, and such a message is dispatched with
`Success` too.  So a proof is lost when its message is executed too early (a proof before
it is missing) or in a block that has a proof already, and when the task ends with the error
of a call.  In the runs without these steps (`Orderly`) every message that is dropped is
stored (`dropped_is_stored`).
-/

namespace GearBridges.ProofStorage.MessageSender

open FiniteMap Transition

abbrev MessageId := Nat

inductive DispatchStatus where
  | success
  | failed
  | notExecuted
deriving DecidableEq, Repr

/-- State of a message.  All messages go to the same program, so that a message is its
payload. -/
inductive MessageState where
  | pending (message : HandleMessage)
  | submitted (message : HandleMessage) (msgId : MessageId) (atBlock : Nat)
  | failed (message : HandleMessage)
deriving DecidableEq

def MessageState.message : MessageState → HandleMessage
  | .pending m => m
  | .submitted m _ _ => m
  | .failed m => m

/-- Where the loop of the sender stands: at its top, or submitting, with the states that
remain and those that are done. -/
inductive Phase where
  | top (states : List MessageState)
  | submitting (states newStates : List MessageState)
deriving DecidableEq

def Phase.states : Phase → List MessageState
  | .top states => states
  | .submitting states newStates => states ++ newStates

/-- The variables of the loop. -/
structure Sender where
  phase : Phase
  latestProcessed : Nat
deriving DecidableEq

def messageResendTimeout : Nat := 100

/-- How `submit_message` ends: with the id of the message, after which `block_number_at` may
fail, or with an error, after which the message may be on the chain all the same. -/
inductive SubmitResult where
  | ok (blockNumberAt : Bool)
  | err (included : Bool)
deriving DecidableEq

/-- The sender, the chain and the messages between them.  `dispatched` holds the
`MessagesDispatched` events with their blocks, newest first; `updates` the ids that
`update` was called with and `notExecuted` the ids dropped as not executed. -/
structure World where
  account : ActorId
  chain : Chain
  sent : MessageId → Option HandleMessage
  nextId : MessageId
  inFlight : List MessageId
  dispatched : List (Nat × MessageId × DispatchStatus)
  finalized : Nat
  channel : List HandleMessage
  sender : Option Sender
  updates : List AuthoritySetId
  notExecuted : List AuthoritySetId

inductive Action where
  | update (proof : List UInt8) (authoritySetId : AuthoritySetId)
  | collect
  | submit (r : SubmitResult)
  | scan (answered : Bool)
  | execute (id : MessageId)
  | skip (id : MessageId)
  | endBlock
  | finalize (block : Nat)
deriving DecidableEq

/-! ## the sender -/

/-- The task ends with an error: its states and the receiver of the channel are gone. -/
def World.abort (w : World) : World := { w with sender := none, channel := [] }

/-- A message reaches the queue of the chain. -/
def World.enqueue (w : World) (m : HandleMessage) : World :=
  { w with
    sent := Function.update w.sent w.nextId (some m)
    nextId := w.nextId + 1
    inFlight := w.nextId :: w.inFlight }

/-- One round of the first loop: a pending message is submitted, a failed one becomes
pending again. -/
def submitNext (w : World) (s : Sender) (r : SubmitResult) : Option World :=
  match s.phase with
  | .top _ => none
  | .submitting [] _ => none
  | .submitting (state :: states) newStates =>
      let proceed (w : World) (state : MessageState) : World :=
        { w with sender := some { s with phase := .submitting states (newStates ++ [state]) } }
      match state with
      | .pending m =>
          match r with
          | .ok true =>
              some (proceed (w.enqueue m) (.submitted m w.nextId w.chain.height))
          | .ok false => some (w.enqueue m).abort
          | .err true => some (proceed (w.enqueue m) (.failed m))
          | .err false => some (proceed w (.failed m))
      | .failed m => some (proceed w (.pending m))
      | .submitted m id atBlock => some (proceed w (.submitted m id atBlock))

/-- The status of a message in the blocks after `latestProcessed`, up to `latestFinalized`. -/
def statusIn (dispatched : List (Nat × MessageId × DispatchStatus))
    (latestProcessed latestFinalized : Nat) (id : MessageId) : Option DispatchStatus :=
  (dispatched.find? fun e =>
    decide (latestProcessed < e.1) && decide (e.1 ≤ latestFinalized) && e.2.1 == id).map (·.2.2)

/-- One round of the second loop; `none` drops the message.  A message without status is sent
again while `at_block + MESSAGE_RESEND_TIMEOUT > latest_finalized`. -/
def settle (status : MessageId → Option DispatchStatus) (latestFinalized : Nat) :
    MessageState → Option MessageState
  | .submitted m id atBlock =>
      match status id with
      | some .success => none
      | some .failed => some (.pending m)
      | some .notExecuted => none
      | none =>
          if latestFinalized < atBlock + messageResendTimeout then some (.pending m)
          else some (.submitted m id atBlock)
  | state => some state

/-- The ids that the second loop reports as not executed. -/
def reportedNotExecuted (status : MessageId → Option DispatchStatus) :
    List MessageState → List AuthoritySetId
  | [] => []
  | .submitted m id _ :: states =>
      if status id = some .notExecuted then m.authoritySetId :: reportedNotExecuted status states
      else reportedNotExecuted status states
  | _ :: states => reportedNotExecuted status states

/-- The rest of the loop once every state was looked at: read the events of the blocks that
were finalized meanwhile, and settle the states. -/
def scanBlocks (w : World) (s : Sender) (answered : Bool) : Option World :=
  match s.phase with
  | .submitting [] newStates =>
      if answered then
        let status := statusIn w.dispatched s.latestProcessed w.finalized
        some { w with
          sender := some
            { phase := .top (newStates.filterMap (settle status w.finalized))
              latestProcessed := w.finalized }
          notExecuted := reportedNotExecuted status newStates ++ w.notExecuted }
      else some w.abort
  | _ => none

/-! ## the system -/

/-- Execute a message in the block being built: a panic is dispatched as `Failed`, a reply
of either kind as `Success`. -/
def executeMessage (w : World) (id : MessageId) : Option World :=
  match w.sent id with
  | none => none
  | some m =>
      if id ∈ w.inFlight then
        let status := match handle w.chain.program w.account (some m) w.chain.height with
          | none => DispatchStatus.failed
          | some _ => .success
        (ProofStorage.step w.chain (.message w.account (some m))).map fun chain =>
          { w with
            chain
            inFlight := w.inFlight.erase id
            dispatched := (w.chain.height, id, status) :: w.dispatched }
      else none

def step (w : World) : Action → Option World
  | .update proof id =>
      -- the ids of the calls are consecutive; without the task the call panics
      if w.sender.isSome && w.updates.head?.all fun last => id.toNat = last.toNat + 1 then
        some { w with channel := w.channel ++ [⟨proof, id⟩], updates := id :: w.updates }
      else none
  | .collect =>
      match w.sender with
      | some ⟨.top states, latestProcessed⟩ =>
          some { w with
            sender := some ⟨.submitting (states ++ w.channel.map .pending) [], latestProcessed⟩
            channel := [] }
      | _ => none
  | .submit r => w.sender.bind fun s => submitNext w s r
  | .scan answered => w.sender.bind fun s => scanBlocks w s answered
  | .execute id => executeMessage w id
  | .skip id =>
      if id ∈ w.inFlight then
        some { w with
          inFlight := w.inFlight.erase id
          dispatched := (w.chain.height, id, .notExecuted) :: w.dispatched }
      else none
  | .endBlock => some { w with chain := w.chain.endBlock }
  | .finalize block =>
      if w.finalized ≤ block ∧ block < w.chain.height then some { w with finalized := block } else none

/-- The sender starts on a chain with the program, in any state of it. -/
structure Initial (w : World) : Prop where
  sender : w.sender = some ⟨.top [], w.finalized⟩
  channel : w.channel = []
  sent : ∀ id, w.sent id = none
  dispatched : w.dispatched = []
  updates : w.updates = []

/-! ## no proof is lost -/

/-- The message for `id` waits in the channel or is one of the states of the loop. -/
def World.tracks (w : World) (id : AuthoritySetId) : Prop :=
  (∃ m ∈ w.channel, m.authoritySetId = id) ∨
    ∃ s, w.sender = some s ∧ ∃ state ∈ s.phase.states, state.message.authoritySetId = id

/-- Every id that `update` was called with is tracked, was reported as not executed, or is
stored. -/
def World.NoLoss (w : World) : Prop :=
  ∀ id ∈ w.updates, ¬ w.tracks id → id ∉ w.notExecuted → id ≤ w.chain.latestId

/-- The message for `id` comes when its proof is the next one and this block has none yet, or
when the proof is stored already. -/
def inSequence (c : Chain) (id : AuthoritySetId) : Bool :=
  (decide (c.latestId.toNat + 1 = id.toNat) &&
      !(lastKeyValue c.proofBlocks).any fun e => e.2 == c.height) ||
    (decide (id ≤ c.latestId) && decide (id ≠ c.latestId + 1))

/-- The steps that lose nothing: messages of the admin are executed in sequence, and the calls
that the loop does not recover from are answered. -/
def orderly (w : World) : Action → Bool
  | .submit (.ok false) => false
  | .scan false => false
  | .execute id =>
      decide (w.account ≠ w.chain.program.adminAddress) ||
        (w.sent id).all fun m => inSequence w.chain m.authoritySetId
  | _ => true

/-- A message executed in sequence moves the latest id forward, if at all, and when it is
answered its proof is stored. -/
theorem step_inSequence {c c' : Chain} {source : ActorId} {m : HandleMessage}
    (hseq : source = c.program.adminAddress → inSequence c m.authoritySetId = true)
    (h : ProofStorage.step c (.message source (some m)) = some c') :
    c.latestId ≤ c'.latestId ∧
      (handle c.program source (some m) c.height ≠ none → m.authoritySetId ≤ c'.latestId) := by
  simp only [ProofStorage.step] at h
  cases hh : handle c.program source (some m) c.height with
  | none =>
      rw [hh] at h
      cases h
      exact ⟨UInt64.le_refl _, fun hne => absurd rfl hne⟩
  | some out =>
      obtain ⟨r, p⟩ := out
      rw [hh] at h
      cases h
      obtain ⟨hsource, msg, hmsg, ⟨⟨e, rfl⟩, rfl, hrefused⟩ | ⟨rfl, hid, -, rfl⟩⟩ := handle_cases hh
      all_goals
        cases hmsg
        have hseq := hseq hsource
        simp only [inSequence, Bool.or_eq_true, Bool.and_eq_true, Bool.not_eq_true',
          decide_eq_true_eq] at hseq
      · refine ⟨UInt64.le_refl _, fun _ => ?_⟩
        rcases hseq with ⟨hnext, hfresh⟩ | ⟨hle, -⟩
        · -- the next proof is refused only in a block that has one
          have hid : m.authoritySetId = c.latestId + 1 := by
            rw [← UInt64.toNat_inj, UInt64.toNat_add, ← hnext]
            exact (Nat.mod_eq_of_lt (hnext ▸ m.authoritySetId.toNat_lt)).symm
          rw [show (lastKeyValue c.proofBlocks).any _ = true from hrefused hid] at hfresh
          contradiction
        · exact hle
      · rcases hseq with ⟨hnext, -⟩ | ⟨-, hne⟩
        · refine ⟨?_, fun _ => UInt64.le_refl _⟩
          rw [UInt64.le_iff_toNat_le]
          show c.latestId.toNat ≤ m.authoritySetId.toNat
          omega
        · exact absurd hid hne

variable {w w' : World} {a : Action}

/-- What one round of the first loop does: the state it looks at gives a state of the same
message, and the message may have reached the chain, under a new id. -/
theorem submitNext_cases {s : Sender} {r : SubmitResult} (hr : r ≠ .ok false)
    (h : submitNext w s r = some w') :
    ∃ state states newStates state', s.phase = .submitting (state :: states) newStates ∧
      state'.message = state.message ∧
      ((w' = { w with sender := some { s with phase := .submitting states (newStates ++ [state']) } } ∧
          ∀ m id b, state' = .submitted m id b → state = .submitted m id b) ∨
        (w' = { w.enqueue state.message with
            sender := some { s with phase := .submitting states (newStates ++ [state']) } } ∧
          ∀ m id b, state' = .submitted m id b → m = state.message ∧ id = w.nextId)) := by
  unfold submitNext at h
  split at h
  · contradiction
  · contradiction
  · next state states newStates hphase =>
      cases state with
      | pending m =>
          cases r with
          | ok number =>
              cases number with
              | false => exact absurd rfl hr
              | true =>
                  cases h
                  refine ⟨_, states, newStates, .submitted m w.nextId w.chain.height, hphase, rfl,
                    .inr ⟨rfl, ?_⟩⟩
                  intro _ _ _ heq
                  cases heq
                  exact ⟨rfl, rfl⟩
          | err included =>
              cases included with
              | false =>
                  cases h
                  exact ⟨_, states, newStates, .failed m, hphase, rfl, .inl ⟨rfl, by simp⟩⟩
              | true =>
                  cases h
                  exact ⟨_, states, newStates, .failed m, hphase, rfl, .inr ⟨rfl, by simp⟩⟩
      | failed m =>
          cases h
          exact ⟨_, states, newStates, .pending m, hphase, rfl, .inl ⟨rfl, by simp⟩⟩
      | submitted m id b =>
          cases h
          exact ⟨_, states, newStates, _, hphase, rfl, .inl ⟨rfl, fun _ _ _ heq => heq⟩⟩

/-- A status that is read is one of an event. -/
theorem mem_of_statusIn {dispatched : List (Nat × MessageId × DispatchStatus)} {lo hi : Nat}
    {id : MessageId} {status : DispatchStatus} (h : statusIn dispatched lo hi id = some status) :
    ∃ b, (b, id, status) ∈ dispatched := by
  obtain ⟨⟨b, id', status'⟩, he, rfl⟩ := Option.map_eq_some_iff.mp h
  have hid := List.find?_some he
  simp only [Bool.and_eq_true, beq_iff_eq] at hid
  obtain ⟨-, rfl⟩ := hid
  exact ⟨b, List.mem_of_find?_eq_some he⟩

theorem mem_reportedNotExecuted {status : MessageId → Option DispatchStatus}
    {states : List MessageState} {m : HandleMessage} {id : MessageId} {b : Nat}
    (hmem : MessageState.submitted m id b ∈ states) (h : status id = some .notExecuted) :
    m.authoritySetId ∈ reportedNotExecuted status states := by
  induction states with
  | nil => contradiction
  | cons state states ih =>
      rcases List.mem_cons.mp hmem with heq | hrest
      · subst heq
        rw [reportedNotExecuted, if_pos h]
        exact List.mem_cons_self
      · cases state with
        | pending m => exact ih hrest
        | failed m => exact ih hrest
        | submitted m' id' b' =>
            rw [reportedNotExecuted]
            split
            · exact List.mem_cons_of_mem _ (ih hrest)
            · exact ih hrest

/-- What the second loop does to one state: the message stays, or it was dispatched with
`Success`, or it was not executed. -/
theorem settle_cases (status : MessageId → Option DispatchStatus) (latestFinalized : Nat)
    (state : MessageState) :
    (∃ state', settle status latestFinalized state = some state' ∧
        state'.message = state.message ∧
        ∀ m id b, state' = .submitted m id b → state = .submitted m id b) ∨
      ∃ m id b, state = .submitted m id b ∧
        settle status latestFinalized state = none ∧
        (status id = some .success ∨ status id = some .notExecuted) := by
  cases state with
  | pending m => exact .inl ⟨_, rfl, rfl, fun _ _ _ h => h⟩
  | failed m => exact .inl ⟨_, rfl, rfl, fun _ _ _ h => h⟩
  | submitted m id b =>
      cases hs : status id with
      | none =>
          by_cases hlate : latestFinalized < b + messageResendTimeout
          · exact .inl ⟨.pending m, by simp [settle, hs, hlate], rfl, by simp⟩
          · exact .inl ⟨_, by simp [settle, hs, hlate], rfl, fun _ _ _ h => h⟩
      | some st =>
          cases st with
          | success => exact .inr ⟨m, id, b, rfl, by simp [settle, hs], .inl hs⟩
          | failed => exact .inl ⟨.pending m, by simp [settle, hs], rfl, by simp⟩
          | notExecuted => exact .inr ⟨m, id, b, rfl, by simp [settle, hs], .inr hs⟩

/-- The invariant of the runs that lose nothing: the task is alive, a submitted state names
the message of its id, and what was dispatched with `Success` is stored. -/
structure Inv (w : World) : Prop where
  alive : w.sender.isSome
  known : ∀ s, w.sender = some s → ∀ m id b, .submitted m id b ∈ s.phase.states →
    w.sent id = some m
  issued : ∀ id m, w.sent id = some m → id < w.nextId
  stored : ∀ b id, (b, id, .success) ∈ w.dispatched →
    ∃ m, w.sent id = some m ∧ m.authoritySetId ≤ w.chain.latestId
  noLoss : w.NoLoss

/-- Nothing is lost by a step after which every message that was tracked is tracked still, or
reported, or stored. -/
theorem World.NoLoss.of_tracks (h : w.NoLoss) (hupdates : w'.updates = w.updates)
    (hreported : ∀ id ∈ w.notExecuted, id ∈ w'.notExecuted)
    (hlatest : w.chain.latestId ≤ w'.chain.latestId)
    (htracks : ∀ id, w.tracks id → ¬ w'.tracks id → id ∉ w'.notExecuted → id ≤ w'.chain.latestId) :
    w'.NoLoss := by
  intro id hid hnot hrep
  rw [hupdates] at hid
  by_cases ht : w.tracks id
  · exact htracks id ht hnot hrep
  · exact UInt64.le_trans (h id hid ht fun hmem => hrep (hreported id hmem)) hlatest

theorem sent_enqueue (hi : Inv w) {m m' : HandleMessage} {id : MessageId} (h : w.sent id = some m) :
    (w.enqueue m').sent id = some m := by
  show Function.update w.sent w.nextId (some m') id = some m
  rw [Function.update_of_ne (Nat.ne_of_lt (hi.issued id m h))]
  exact h

/-! ### one lemma for each kind of step -/

theorem Inv.update (hi : Inv w) (proof : List UInt8) (id : AuthoritySetId) :
    Inv { w with channel := w.channel ++ [⟨proof, id⟩], updates := id :: w.updates } := by
  refine ⟨hi.alive, hi.known, hi.issued, hi.stored, ?_⟩
  intro id' hid' hnot hrep
  rcases List.mem_cons.mp hid' with rfl | hold
  · exact absurd (.inl ⟨⟨proof, id'⟩, by simp, rfl⟩) hnot
  · refine hi.noLoss id' hold (fun ht => hnot ?_) hrep
    rcases ht with ⟨m, hm, hmid⟩ | ht
    · exact .inl ⟨m, List.mem_append_left _ hm, hmid⟩
    · exact .inr ht

theorem Inv.collect (hi : Inv w) {states : List MessageState} {latestProcessed : Nat}
    (hsender : w.sender = some ⟨.top states, latestProcessed⟩) :
    Inv { w with
      sender := some ⟨.submitting (states ++ w.channel.map .pending) [], latestProcessed⟩
      channel := [] } := by
  refine ⟨rfl, ?_, hi.issued, hi.stored, ?_⟩
  · intro s hs m id b hmem
    cases hs
    simp only [Phase.states, List.append_nil, List.mem_append, List.mem_map, reduceCtorEq,
      and_false, exists_false, or_false] at hmem
    exact hi.known _ hsender m id b hmem
  · refine hi.noLoss.of_tracks rfl (fun _ h => h) (UInt64.le_refl _) fun id ht hnot _ => ?_
    refine absurd (.inr ⟨_, rfl, ?_⟩) hnot
    rcases ht with ⟨m, hm, hmid⟩ | ⟨s, hs, state, hmem, hid⟩
    · exact ⟨.pending m, by simp [Phase.states, hm], hmid⟩
    · rw [hsender] at hs
      cases hs
      exact ⟨state, by simp only [Phase.states] at hmem ⊢; simp [hmem], hid⟩

theorem Inv.submit (hi : Inv w) {s : Sender} (hsender : w.sender = some s) {r : SubmitResult}
    (hr : r ≠ .ok false) (h : submitNext w s r = some w') : Inv w' := by
  obtain ⟨state, states, newStates, state', hphase, hmsg, hcase⟩ := submitNext_cases hr h
  have hstates : ∀ x, x ∈ s.phase.states ↔ x = state ∨ x ∈ states ∨ x ∈ newStates := by
    simp [hphase, Phase.states]
  have hstates' : ∀ x, x ∈ (Phase.submitting states (newStates ++ [state'])).states ↔
      x = state' ∨ x ∈ states ∨ x ∈ newStates := by
    intro x
    simp only [Phase.states, List.mem_append, List.mem_singleton]
    tauto
  have htracks : ∀ id, w.tracks id → (∃ m ∈ w.channel, m.authoritySetId = id) ∨
      ∃ x ∈ (Phase.submitting states (newStates ++ [state'])).states,
        x.message.authoritySetId = id := by
    rintro id (hch | ⟨s', hs', x, hx, hid⟩)
    · exact .inl hch
    · rw [hsender] at hs'
      cases hs'
      rcases (hstates x).mp hx with rfl | hrest
      · exact .inr ⟨state', (hstates' _).mpr (.inl rfl), hmsg ▸ hid⟩
      · exact .inr ⟨x, (hstates' x).mpr (.inr hrest), hid⟩
  rcases hcase with ⟨rfl, hsame⟩ | ⟨rfl, hnew⟩
  · refine ⟨rfl, ?_, hi.issued, hi.stored, ?_⟩
    · intro s' hs' m id b hmem
      cases hs'
      refine hi.known s hsender m id b ((hstates _).mpr ?_)
      rcases (hstates' _).mp hmem with heq | hrest
      · exact .inl (hsame m id b heq.symm).symm
      · exact .inr hrest
    · refine hi.noLoss.of_tracks rfl (fun _ h => h) (UInt64.le_refl _) fun id ht hnot _ => ?_
      exact absurd ((htracks id ht).imp (fun h => h) fun h => ⟨_, rfl, h⟩) hnot
  · refine ⟨rfl, ?_, ?_, ?_, ?_⟩
    · intro s' hs' m id b hmem
      cases hs'
      rcases (hstates' _).mp hmem with heq | hrest
      · obtain ⟨rfl, rfl⟩ := hnew m id b heq.symm
        exact Function.update_self ..
      · exact sent_enqueue hi (hi.known s hsender m id b ((hstates _).mpr (.inr hrest)))
    · intro id m hid
      by_cases heq : id = w.nextId
      · rw [heq]
        exact Nat.lt_succ_self _
      · have hold : Function.update w.sent w.nextId (some state.message) id = some m := hid
        rw [Function.update_of_ne heq] at hold
        exact Nat.lt_succ_of_lt (hi.issued id m hold)
    · intro b id hmem
      obtain ⟨m, hm, hle⟩ := hi.stored b id hmem
      exact ⟨m, sent_enqueue hi hm, hle⟩
    · refine hi.noLoss.of_tracks rfl (fun _ h => h) (UInt64.le_refl _) fun id ht hnot _ => ?_
      exact absurd ((htracks id ht).imp (fun h => h) fun h => ⟨_, rfl, h⟩) hnot

theorem Inv.scan (hi : Inv w) {s : Sender} (hsender : w.sender = some s)
    (h : scanBlocks w s true = some w') : Inv w' := by
  unfold scanBlocks at h
  split at h
  · next newStates hphase =>
      cases h
      have hstates : s.phase.states = newStates := by simp [hphase, Phase.states]
      refine ⟨rfl, ?_, hi.issued, hi.stored, ?_⟩
      · intro s' hs' m id b hmem
        cases hs'
        obtain ⟨state, hmem, hsettle⟩ := List.mem_filterMap.mp hmem
        rcases settle_cases _ _ state with ⟨state', hs, -, hsame⟩ | ⟨_, _, _, -, hnone, -⟩
        · rw [hs] at hsettle
          rw [hsame m id b (Option.some.inj hsettle)] at hmem
          exact hi.known s hsender m id b (hstates ▸ hmem)
        · rw [hnone] at hsettle
          contradiction
      · refine hi.noLoss.of_tracks rfl (fun _ h => List.mem_append_right _ h) (UInt64.le_refl _) ?_
        rintro id (hch | ⟨s', hs', state, hmem, hid⟩) hnot hrep
        · exact absurd (.inl hch) hnot
        · rw [hsender] at hs'
          cases hs'
          rw [hstates] at hmem
          rcases settle_cases (statusIn w.dispatched s.latestProcessed w.finalized) w.finalized state
            with ⟨state', hs, hmsg, -⟩ | ⟨m, mid, b, rfl, -, hst | hst⟩
          · refine absurd (.inr ⟨_, rfl, state', ?_, hmsg ▸ hid⟩) hnot
            exact List.mem_filterMap.mpr ⟨state, hmem, hs⟩
          · -- dispatched with `Success`: the message of this id is stored
            obtain ⟨b', hb'⟩ := mem_of_statusIn hst
            obtain ⟨m', hm', hle⟩ := hi.stored b' mid hb'
            rw [hi.known s hsender m mid b (hstates ▸ hmem)] at hm'
            cases hm'
            rw [← hid]
            exact hle
          · refine absurd (List.mem_append_left _ ?_) hrep
            rw [← hid]
            exact mem_reportedNotExecuted hmem hst
  · contradiction

theorem Inv.execute (hi : Inv w) {id : MessageId} (hok : orderly w (.execute id) = true)
    (h : executeMessage w id = some w') : Inv w' := by
  unfold executeMessage at h
  split at h
  · contradiction
  · next m hsent =>
      split at h
      · obtain ⟨chain, hchain, rfl⟩ := Option.map_eq_some_iff.mp h
        have hseq : w.account = w.chain.program.adminAddress →
            inSequence w.chain m.authoritySetId = true := by
          intro hadmin
          simpa [orderly, hadmin, hsent] using hok
        obtain ⟨hle, hstored⟩ := step_inSequence hseq hchain
        refine ⟨hi.alive, hi.known, hi.issued, ?_, ?_⟩
        · intro b id' hmem
          rcases List.mem_cons.mp hmem with heq | hmem
          · cases hh : handle w.chain.program w.account (some m) w.chain.height with
            | none => simp [hh] at heq
            | some out =>
                simp only [hh, Prod.mk.injEq] at heq
                obtain ⟨-, rfl, -⟩ := heq
                exact ⟨m, hsent, hstored (by simp [hh])⟩
          · obtain ⟨m', hm', hle'⟩ := hi.stored b id' hmem
            exact ⟨m', hm', UInt64.le_trans hle' hle⟩
        · exact hi.noLoss.of_tracks rfl (fun _ h => h) hle fun _ ht hnot _ => absurd ht hnot
      · contradiction

/-- **Step lemma**: the steps that lose nothing keep the invariant. -/
theorem Inv.step (hi : Inv w) (hok : orderly w a = true) (h : step w a = some w') : Inv w' := by
  cases a with
  | update proof id =>
      simp only [MessageSender.step] at h
      split at h
      · cases h
        exact hi.update proof id
      · contradiction
  | collect =>
      simp only [MessageSender.step] at h
      split at h
      · next hsender =>
          cases h
          exact hi.collect hsender
      · contradiction
  | submit r =>
      obtain ⟨s, hs, h⟩ := Option.bind_eq_some_iff.mp h
      refine hi.submit hs (fun hr => ?_) h
      rw [hr] at hok
      contradiction
  | scan answered =>
      obtain ⟨s, hs, h⟩ := Option.bind_eq_some_iff.mp h
      cases answered with
      | false => contradiction
      | true => exact hi.scan hs h
  | execute id => exact hi.execute hok h
  | skip id =>
      simp only [MessageSender.step] at h
      split at h
      · cases h
        refine ⟨hi.alive, hi.known, hi.issued, ?_, hi.noLoss⟩
        intro b id' hmem
        rcases List.mem_cons.mp hmem with heq | hmem
        · simp at heq
        · exact hi.stored b id' hmem
      · contradiction
  | endBlock =>
      cases h
      exact ⟨hi.alive, hi.known, hi.issued, hi.stored, hi.noLoss⟩
  | finalize block =>
      simp only [MessageSender.step] at h
      split at h
      · cases h
        exact ⟨hi.alive, hi.known, hi.issued, hi.stored, hi.noLoss⟩
      · contradiction

theorem inv_of_initial (h : Initial w) : Inv w := by
  refine ⟨by rw [h.sender]; rfl, ?_, ?_, ?_, ?_⟩
  · intro s hs m id b hmem
    rw [h.sender] at hs
    cases hs
    simp [Phase.states] at hmem
  · intro id m hid
    rw [h.sent] at hid
    contradiction
  · intro b id hmem
    rw [h.dispatched] at hmem
    contradiction
  · intro id hid
    rw [h.updates] at hid
    contradiction

/-- The runs that lose nothing. -/
abbrev Orderly : World → Prop :=
  Reachable step (fun w a => orderly w a = true) Initial

/-- **No validator set proof is lost** in the runs in which messages are executed in sequence
and the calls that the loop does not recover from are answered. -/
theorem dropped_is_stored (h : Orderly w) : w.NoLoss :=
  (h.invariant (I := Inv) (fun _ hs => inv_of_initial hs)
    fun _ _ _ hi hok hs => hi.step hok hs).noLoss

/-- The sender of account 1, which uploaded the program in block 1 with a genesis proof for
set 5; the chain is building block 2. -/
def startWorld : World :=
  { account := 1
    chain := (uploaded 1 ⟨[9], [5], 5⟩ 1).endBlock
    sent := fun _ => none
    nextId := 0
    inFlight := []
    dispatched := []
    finalized := 1
    channel := []
    sender := some ⟨.top [], 1⟩
    updates := []
    notExecuted := [] }

theorem initial_startWorld : Initial startWorld :=
  ⟨rfl, rfl, fun _ => rfl, rfl, rfl⟩

/-- The message for `id` is known to the program, and the sender tracks nothing. -/
def settledAt (latest : AuthoritySetId) (w : World) : Bool :=
  decide (w.channel = []) && decide (w.sender = some ⟨.top [], w.finalized⟩) &&
    decide (w.notExecuted = []) && decide ((7 : AuthoritySetId) ∈ w.updates) &&
    decide (w.chain.latestId = latest)

/-- A settled world tracks nothing and has reported nothing. -/
theorem settledAt_spec {latest : AuthoritySetId} (h : settledAt latest w = true) :
    7 ∈ w.updates ∧ ¬ w.tracks 7 ∧ 7 ∉ w.notExecuted ∧ w.chain.latestId = latest := by
  simp only [settledAt, Bool.and_eq_true, decide_eq_true_eq] at h
  obtain ⟨⟨⟨⟨hch, hs⟩, hne⟩, hup⟩, hlatest⟩ := h
  refine ⟨hup, ?_, by simp [hne], hlatest⟩
  rintro (⟨m, hm, -⟩ | ⟨s, hs', state, hmem, -⟩)
  · simp [hch] at hm
  · rw [hs] at hs'
    cases hs'
    simp [Phase.states] at hmem

/-- The proofs for sets 6 and 7 are executed in blocks 2 and 3 and both stored. -/
theorem dropped_is_stored_seven : ∃ w, Orderly w ∧ ¬ w.tracks 7 ∧ 7 ≤ w.chain.latestId := by
  obtain ⟨w, hw, hp⟩ := exists_reachable_of_exec step (fun w a => orderly w a = true)
    initial_startWorld
    [.update [6] 6, .update [7] 7, .collect, .submit (.ok true), .submit (.ok true), .execute 0,
      .endBlock, .execute 1, .endBlock, .finalize 3, .scan true]
    (settledAt 7) (by decide +kernel)
  obtain ⟨hup, hnot, hrep, -⟩ := settledAt_spec hp
  exact ⟨w, hw, hnot, dropped_is_stored hw 7 hup hnot hrep⟩

/-- The proofs for sets 6 and 7 are executed in the same block: the second is refused with a
reply, dispatched with `Success` and dropped. -/
theorem dropped_not_stored_same_block : ∃ w, Reachable step free Initial w ∧ ¬ w.NoLoss := by
  obtain ⟨w, hw, hp⟩ := exists_reachable_of_exec step free initial_startWorld
    [.update [6] 6, .update [7] 7, .collect, .submit (.ok true), .submit (.ok true), .execute 0,
      .execute 1, .endBlock, .finalize 2, .scan true]
    (settledAt 6) (by decide +kernel)
  obtain ⟨hup, hnot, hrep, hlatest⟩ := settledAt_spec hp
  refine ⟨w, hw, fun hno => ?_⟩
  have hle := hno 7 hup hnot hrep
  rw [hlatest] at hle
  exact absurd hle (by decide)

end GearBridges.ProofStorage.MessageSender
