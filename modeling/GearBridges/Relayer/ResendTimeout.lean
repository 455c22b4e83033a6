import GearBridges.Relayer.ProofStorageSender

/-!
# Relayer.ResendTimeout

When `message_sender_inner` sends a proof again.  Here the task stands alone, with any answers
of the chain: any results of the submissions, any finalized heights and any events.

A message whose status does not come is to be sent again once `MESSAGE_RESEND_TIMEOUT` blocks
after its own are finalized.  The loop compares the other way round: it sends the message again
while they are not, and not any more when they are.  So the timeout is kept exactly in the runs
in which every submitted message has its status in the first blocks that are read after it
(`resent_after_timeout_iff`).
-/

namespace GearBridges.ProofStorage.ResendTimeout

open MessageSender Transition

/-- A state of the loop, with the number of its message in the order of the channel.  The code
has no such number; it tells the submissions of one message from those of another. -/
structure Entry where
  serial : Nat
  state : MessageState
deriving DecidableEq

/-- Where the loop stands: at its top, or submitting, or ended with the error of a call. -/
inductive Phase where
  | top (states : List Entry)
  | submitting (states newStates : List Entry)
  | ended
deriving DecidableEq

def Phase.entries : Phase → List Entry
  | .top states => states
  | .submitting states newStates => newStates ++ states
  | .ended => []

/-- What the task was told by the chain. -/
inductive Event where
  | submitted (serial : Nat) (id : MessageId) (atBlock : Option UInt32)
  | scanned (status : MessageId → Option DispatchStatus)

/-- The variables of the loop.  `received` counts the messages of the channel and `log` holds
what the chain told, newest first. -/
structure Task where
  phase : Phase
  latestProcessed : UInt32
  received : Nat
  log : List Event

/-- How `submit_message` ends; after a success `block_number_at` may fail. -/
inductive SubmitAnswer where
  | ok (id : MessageId) (atBlock : Option UInt32)
  | err
deriving DecidableEq

/-- The latest finalized block, and the `MessagesDispatched` events of the blocks. -/
structure Finalized where
  block : UInt32
  eventsAt : Nat → List (MessageId × DispatchStatus)

inductive Action where
  | collect (messages : List HandleMessage)
  | submit (answer : SubmitAnswer)
  | scan (answer : Option Finalized)

/-! ## the loop -/

/-- One round of the first loop. -/
def submitNext (w : Task) (answer : SubmitAnswer) : Option Task :=
  match w.phase with
  | .submitting (⟨n, .pending m⟩ :: states) newStates =>
      match answer with
      | .ok id (some block) =>
          some { w with
            phase := .submitting states (newStates ++ [⟨n, .submitted m id block.toNat⟩])
            log := .submitted n id (some block) :: w.log }
      | .ok id none => some { w with phase := .ended, log := .submitted n id none :: w.log }
      | .err => some { w with phase := .submitting states (newStates ++ [⟨n, .failed m⟩]) }
  | .submitting (⟨n, .failed m⟩ :: states) newStates =>
      some { w with phase := .submitting states (newStates ++ [⟨n, .pending m⟩]) }
  | .submitting (⟨n, .submitted m id b⟩ :: states) newStates =>
      some { w with phase := .submitting states (newStates ++ [⟨n, .submitted m id b⟩]) }
  | _ => none

/-- The events of the blocks `latest_processed + 1..=latest_finalized`. -/
def dispatchedEvents (latestProcessed : UInt32) (f : Finalized) :
    List (MessageId × DispatchStatus) :=
  let first := (latestProcessed + 1).toNat
  (List.range' first (f.block.toNat + 1 - first)).flatMap f.eventsAt

/-- The status of a message in these blocks, the last one when there are several. -/
def statusOf (latestProcessed : UInt32) (f : Finalized) (id : MessageId) : Option DispatchStatus :=
  (dispatchedEvents latestProcessed f).reverse.lookup id

/-- One round of the second loop; `none` drops the message.  The sum is one of `u32`, which is
all that tells it from the round of `MessageSender` (`settle_eq`). -/
def settle (status : MessageId → Option DispatchStatus) (latestFinalized : UInt32) :
    MessageState → Option MessageState
  | .submitted m id atBlock =>
      match status id with
      | some .success => none
      | some .failed => some (.pending m)
      | some .notExecuted => none
      | none =>
          if latestFinalized.toNat < (atBlock + messageResendTimeout) % 2 ^ 32 then
            some (.pending m)
          else some (.submitted m id atBlock)
  | state => some state

/-- As long as the sum fits, this is the round of the task beside the program. -/
theorem settle_eq (status : MessageId → Option DispatchStatus) (latestFinalized : UInt32)
    {state : MessageState}
    (hfits : ∀ m id b, state = .submitted m id b → b + messageResendTimeout < 2 ^ 32) :
    settle status latestFinalized state =
      MessageSender.settle status latestFinalized.toNat state := by
  cases state with
  | pending m => rfl
  | failed m => rfl
  | submitted m id b =>
      have hb := hfits m id b rfl
      cases hs : status id with
      | none => simp only [settle, MessageSender.settle, hs, Nat.mod_eq_of_lt hb]
      | some s => cases s <;> simp [settle, MessageSender.settle, hs]

def settleEntry (status : MessageId → Option DispatchStatus) (latestFinalized : UInt32)
    (e : Entry) : Option Entry :=
  (settle status latestFinalized e.state).map fun state => ⟨e.serial, state⟩

/-- The rest of the loop once every state was looked at. -/
def scanBlocks (w : Task) (answer : Option Finalized) : Option Task :=
  match w.phase with
  | .submitting [] newStates =>
      match answer with
      | none => some { w with phase := .ended }
      | some f =>
          let status := statusOf w.latestProcessed f
          some { w with
            phase := .top (newStates.filterMap (settleEntry status f.block))
            latestProcessed := f.block
            log := .scanned status :: w.log }
  | _ => none

def step (w : Task) : Action → Option Task
  | .collect messages =>
      match w.phase with
      | .top states =>
          some { w with
            phase := .submitting
              (states ++ (messages.zipIdx w.received).map fun p => ⟨p.2, .pending p.1⟩) []
            received := w.received + messages.length }
      | _ => none
  | .submit answer => submitNext w answer
  | .scan answer => scanBlocks w answer

structure Initial (w : Task) : Prop where
  phase : w.phase = .top []
  received : w.received = 0
  log : w.log = []

/-! ## what is claimed of the timeout -/

/-- The last submission of a message and its block, if no status of it was seen since. -/
def waiting : List Event → Nat → Option (MessageId × UInt32)
  | [], _ => none
  | .submitted n id atBlock :: log, serial =>
      if n = serial then atBlock.map fun b => (id, b) else waiting log serial
  | .scanned status :: log, serial => (waiting log serial).filter fun p => (status p.1).isNone

/-- How often a message was submitted. -/
def submissions : List Event → Nat → Nat
  | [], _ => 0
  | .submitted n _ _ :: log, serial => (if n = serial then 1 else 0) + submissions log serial
  | .scanned _ :: log, serial => submissions log serial

/-- The events come promptly: at no scan has a message without status run into its timeout, and
no message has failed. -/
def Prompt (past : List (Task × Action)) : Prop :=
  ∀ w f, (w, Action.scan (some f)) ∈ past → ∀ n m id b,
    ⟨n, .submitted m id b⟩ ∈ w.phase.entries →
      (statusOf w.latestProcessed f id = none → f.block.toNat < b + messageResendTimeout) ∧
        statusOf w.latestProcessed f id ≠ some .failed

/-- A message without status becomes pending in the scans that find its timeout over and in no
others; it is submitted again only when the latest finalized block is that far; and with prompt
events no message is submitted twice. -/
structure ResentAfterTimeout (past : List (Task × Action)) (s : Task) : Prop where
  pending_iff : ∀ w f w', (w, Action.scan (some f)) ∈ past → step w (.scan (some f)) = some w' →
    ∀ n m id b, ⟨n, .submitted m id b⟩ ∈ w.phase.entries →
      statusOf w.latestProcessed f id = none →
        (⟨n, .pending m⟩ ∈ w'.phase.entries ↔ b + messageResendTimeout ≤ f.block.toNat)
  resent : ∀ w id' block, (w, Action.submit (.ok id' block)) ∈ past → ∀ n m states newStates,
    w.phase = .submitting (⟨n, .pending m⟩ :: states) newStates →
      ∀ id b, waiting w.log n = some (id, b) →
        b.toNat + messageResendTimeout ≤ w.latestProcessed.toNat
  once : Prompt past → ∀ n, submissions s.log n ≤ 1

/-- A scan in which every submitted message has a status, unless the sum of its block and the
timeout wraps around and is not above the latest finalized block. -/
def Answered (w : Task) (f : Finalized) : Prop :=
  ∀ n m id b, ⟨n, .submitted m id b⟩ ∈ w.phase.entries →
    statusOf w.latestProcessed f id ≠ none ∨
      2 ^ 32 ≤ b + messageResendTimeout ∧
        (b + messageResendTimeout) % 2 ^ 32 ≤ f.block.toNat

/-! ## one step -/

variable {w w' s : Task} {a : Action} {past : List (Task × Action)}

/-- A message that is not with the chain. -/
def Entry.idle (e : Entry) : Prop := ∀ m id b, e.state ≠ .submitted m id b

/-- What one round of the first loop does: the message that it looks at is submitted, or the
chain is told nothing, or the task ends. -/
theorem submit_cases {answer : SubmitAnswer} (h : step w (.submit answer) = some w') :
    ∃ e states newStates, w.phase = .submitting (e :: states) newStates ∧
      ((∃ m id block, e.state = .pending m ∧ answer = .ok id (some block) ∧
          w' = { w with
            phase := .submitting states
              (newStates ++ [⟨e.serial, .submitted m id block.toNat⟩])
            log := .submitted e.serial id (some block) :: w.log }) ∨
        (∃ m id, e.state = .pending m ∧
          w' = { w with phase := .ended, log := .submitted e.serial id none :: w.log }) ∨
        ∃ e', e'.serial = e.serial ∧ (e' = e ∨ e.idle ∧ e'.idle) ∧
          w' = { w with phase := .submitting states (newStates ++ [e']) }) := by
  simp only [step, submitNext] at h
  split at h
  · next n m states newStates hphase =>
      refine ⟨_, states, newStates, hphase, ?_⟩
      split at h
      · next id block =>
          cases h
          exact .inl ⟨m, id, block, rfl, rfl, rfl⟩
      · next id =>
          cases h
          exact .inr (.inl ⟨m, id, rfl, rfl⟩)
      · cases h
        exact .inr (.inr ⟨⟨n, .failed m⟩, rfl, .inr ⟨by simp [Entry.idle], by simp [Entry.idle]⟩,
          rfl⟩)
  · next n m states newStates hphase =>
      cases h
      exact ⟨_, states, newStates, hphase, .inr (.inr ⟨⟨n, .pending m⟩, rfl,
        .inr ⟨by simp [Entry.idle], by simp [Entry.idle]⟩, rfl⟩)⟩
  · next n m id b states newStates hphase =>
      cases h
      exact ⟨_, states, newStates, hphase, .inr (.inr ⟨_, rfl, .inl rfl, rfl⟩)⟩
  · contradiction

theorem scan_cases {answer : Option Finalized} (h : step w (.scan answer) = some w') :
    ∃ newStates, w.phase = .submitting [] newStates ∧
      (answer = none ∧ w' = { w with phase := .ended } ∨
        ∃ f, answer = some f ∧
          w' = { w with
            phase := .top (newStates.filterMap (settleEntry (statusOf w.latestProcessed f) f.block))
            latestProcessed := f.block
            log := .scanned (statusOf w.latestProcessed f) :: w.log }) := by
  simp only [step, scanBlocks] at h
  split at h
  · next newStates hphase =>
      refine ⟨newStates, hphase, ?_⟩
      cases answer with
      | none =>
          cases h
          exact .inl ⟨rfl, rfl⟩
      | some f =>
          cases h
          exact .inr ⟨f, rfl, rfl⟩
  · contradiction

theorem collect_cases {messages : List HandleMessage} (h : step w (.collect messages) = some w') :
    ∃ states, w.phase = .top states ∧
      w' = { w with
        phase := .submitting
          (states ++ (messages.zipIdx w.received).map fun p => ⟨p.2, .pending p.1⟩) []
        received := w.received + messages.length } := by
  simp only [step] at h
  split at h
  · next states hphase =>
      cases h
      exact ⟨states, hphase, rfl⟩
  · contradiction

/-! ## messages and their numbers -/

/-- The messages of the loop have numbers of their own. -/
structure Numbered (w : Task) : Prop where
  nodup : (w.phase.entries.map Entry.serial).Nodup
  lt : ∀ e ∈ w.phase.entries, e.serial < w.received

theorem serial_of_settleEntry {status : MessageId → Option DispatchStatus} {block : UInt32}
    {e e' : Entry} (h : settleEntry status block e = some e') : e'.serial = e.serial := by
  obtain ⟨state, -, rfl⟩ := Option.map_eq_some_iff.mp h
  rfl

/-- What settling leaves has its numbers from the list before. -/
theorem map_serial_filterMap (status : MessageId → Option DispatchStatus) (block : UInt32)
    (l : List Entry) :
    ((l.filterMap (settleEntry status block)).map Entry.serial).Sublist (l.map Entry.serial) := by
  induction l with
  | nil => simp
  | cons e l ih =>
      cases h : settleEntry status block e with
      | none =>
          rw [List.filterMap_cons_none h]
          exact ih.trans (List.sublist_cons_self _ _)
      | some e' =>
          rw [List.filterMap_cons_some h, List.map_cons, List.map_cons, serial_of_settleEntry h]
          exact ih.cons_cons _

theorem Numbered.initial (h : Initial w) : Numbered w :=
  ⟨by simp [h.phase, Phase.entries], by simp [h.phase, Phase.entries]⟩

/-- The messages of a turn are numbered in a row. -/
theorem map_serial_collected (messages : List HandleMessage) (received : Nat) :
    (messages.zipIdx received).map (Entry.serial ∘ fun p => ⟨p.2, .pending p.1⟩) =
      List.range' received messages.length := by
  rw [← List.zipIdx_map_snd received messages]
  rfl

theorem Numbered.next (hn : Numbered w) (h : step w a = some w') : Numbered w' := by
  obtain ⟨hnodup, hlt⟩ := hn
  cases a with
  | collect messages =>
      obtain ⟨states, hphase, rfl⟩ := collect_cases h
      rw [hphase] at hnodup hlt
      refine ⟨?_, ?_⟩
      · simp only [Phase.entries, List.nil_append, List.map_append, List.map_map]
        rw [map_serial_collected]
        refine List.nodup_append.mpr ⟨hnodup, List.nodup_range', ?_⟩
        intro a ha b hb hab
        obtain ⟨e, he, rfl⟩ := List.mem_map.mp ha
        have hnew := (List.mem_range'_1.mp hb).1
        have hold := hlt e he
        omega
      · intro e he
        simp only [Phase.entries, List.nil_append, List.mem_append, List.mem_map] at he
        show e.serial < w.received + messages.length
        rcases he with hold | ⟨p, hp, rfl⟩
        · exact Nat.lt_add_right _ (hlt e hold)
        · have := List.snd_lt_add_of_mem_zipIdx hp
          simpa [Nat.add_comm] using this
  | submit answer =>
      obtain ⟨e, states, newStates, hphase, hcase⟩ := submit_cases h
      rw [hphase] at hnodup hlt
      simp only [Phase.entries] at hnodup hlt
      rcases hcase with ⟨m, id, block, -, -, rfl⟩ | ⟨m, id, -, rfl⟩ | ⟨e', he', -, rfl⟩
      · refine ⟨by simpa [Phase.entries] using hnodup, ?_⟩
        simpa [Phase.entries, or_imp, forall_and] using hlt
      · exact ⟨by simp [Phase.entries], by simp [Phase.entries]⟩
      · refine ⟨by simpa [Phase.entries, he'] using hnodup, ?_⟩
        simpa [Phase.entries, or_imp, forall_and, he'] using hlt
  | scan answer =>
      obtain ⟨newStates, hphase, ⟨-, rfl⟩ | ⟨f, -, rfl⟩⟩ := scan_cases h
      · exact ⟨by simp [Phase.entries], by simp [Phase.entries]⟩
      · rw [hphase] at hnodup hlt
        simp only [Phase.entries, List.append_nil] at hnodup hlt
        refine ⟨hnodup.sublist (map_serial_filterMap _ _ _), ?_⟩
        intro e he
        obtain ⟨e₀, he₀, hsome⟩ := List.mem_filterMap.mp he
        show e.serial < w.received
        rw [serial_of_settleEntry hsome]
        exact hlt e₀ he₀

/-- What is still to come has a number above those of the loop. -/
theorem Numbered.ne_of_received_le (hn : Numbered w) {e : Entry} (he : e ∈ w.phase.entries)
    {n : Nat} (hle : w.received ≤ n) : e.serial ≠ n := by
  have := hn.lt e he
  omega

/-- A number occurs once only. -/
theorem Numbered.ne_of_mem (hn : Numbered w) {e e₁ : Entry} {front rest : List Entry}
    (hentries : w.phase.entries = front ++ e :: rest) (he₁ : e₁ ∈ front ++ rest) :
    e.serial ≠ e₁.serial := by
  have hnodup := hn.nodup
  rw [hentries, List.map_append, List.map_cons, List.nodup_middle, ← List.map_append] at hnodup
  intro heq
  have hmem := List.mem_map_of_mem (f := Entry.serial) he₁
  rw [← heq] at hmem
  exact hnodup.notMem hmem

theorem Numbered.of_history (h : History step Initial past s) : Numbered s :=
  h.invariant (I := fun _ s => Numbered s) (fun _ => Numbered.initial)
    fun _ _ _ _ hn hs => hn.next hs

/-! ## what a scan decides -/

/-- A message without status becomes pending when the latest finalized block is below the sum
of its block and the timeout. -/
theorem pending_mem_iff (hn : Numbered w) {f : Finalized} (h : step w (.scan (some f)) = some w')
    {n : Nat} {m : HandleMessage} {id : MessageId} {b : Nat}
    (hmem : ⟨n, .submitted m id b⟩ ∈ w.phase.entries)
    (hstatus : statusOf w.latestProcessed f id = none) :
    ⟨n, .pending m⟩ ∈ w'.phase.entries ↔
      f.block.toNat < (b + messageResendTimeout) % 2 ^ 32 := by
  obtain ⟨newStates, hphase, ⟨hf, -⟩ | ⟨f', hf, rfl⟩⟩ := scan_cases h
  · cases hf
  · cases hf
    have hnodup := hn.nodup
    rw [hphase] at hmem hnodup
    simp only [Phase.entries, List.append_nil] at hmem hnodup ⊢
    rw [List.mem_filterMap]
    constructor
    · rintro ⟨e, he, hsettle⟩
      -- the number tells which state the pending one comes from
      have hserial : e.serial = n := (serial_of_settleEntry hsettle).symm
      obtain rfl := List.inj_on_of_nodup_map hnodup he hmem hserial
      simpa [settleEntry, settle, hstatus] using hsettle
    · intro hlt
      refine ⟨_, hmem, ?_⟩
      simpa [settleEntry, settle, hstatus] using hlt

/-- The comparison of the code and the one that is claimed agree only where the sum wraps. -/
theorem decision_agrees_iff (b : Nat) (block : UInt32) :
    (block.toNat < (b + messageResendTimeout) % 2 ^ 32 ↔ b + messageResendTimeout ≤ block.toNat) ↔
      2 ^ 32 ≤ b + messageResendTimeout ∧ (b + messageResendTimeout) % 2 ^ 32 ≤ block.toNat := by
  have hblock := block.toNat_lt
  generalize b + messageResendTimeout = sum
  omega

/-! ## what the events tell of the messages -/

/-- A relation between the events and a message of the loop that the events of other messages
keep, that a submission establishes, and that does not tell a failed message from a pending
one. -/
structure Follows (R : List Event → Entry → Prop) : Prop where
  other : ∀ {log n id b e}, n ≠ e.serial → R log e → R (.submitted n id b :: log) e
  submitted : ∀ {log n m id} {block : UInt32}, R log ⟨n, .pending m⟩ →
    R (.submitted n id (some block) :: log) ⟨n, .submitted m id block.toNat⟩
  idle : ∀ {log e e'}, e.idle → e'.idle → e'.serial = e.serial → R log e → R log e'
  scanned : ∀ {log status e}, e.idle → R log e → R (.scanned status :: log) e

/-- The relation holds of the messages of the loop and of those still to come. -/
structure Tracked (R : List Event → Entry → Prop) (w : Task) : Prop where
  entry : ∀ e ∈ w.phase.entries, R w.log e
  fresh : ∀ n, w.received ≤ n → ∀ m, R w.log ⟨n, .pending m⟩

theorem idle_pending (n : Nat) (m : HandleMessage) : (⟨n, .pending m⟩ : Entry).idle := by
  simp [Entry.idle]

/-- **Step lemma**: such a relation goes on to hold if it does of what a scan leaves. -/
theorem Tracked.next {R : List Event → Entry → Prop} (hR : Follows R) (ht : Tracked R w)
    (hn : Numbered w)
    (hsettle : ∀ f, a = .scan (some f) → ∀ e ∈ w.phase.entries, ∀ e',
      settleEntry (statusOf w.latestProcessed f) f.block e = some e' → R w.log e →
        R (.scanned (statusOf w.latestProcessed f) :: w.log) e')
    (h : step w a = some w') : Tracked R w' := by
  obtain ⟨hentry, hfresh⟩ := ht
  cases a with
  | collect messages =>
      obtain ⟨states, hphase, rfl⟩ := collect_cases h
      rw [hphase] at hentry
      refine ⟨?_, ?_⟩
      · intro e he
        simp only [Phase.entries, List.nil_append, List.mem_append, List.mem_map] at he
        rcases he with hold | ⟨p, hp, rfl⟩
        · exact hentry e hold
        · exact hfresh _ (List.le_snd_of_mem_zipIdx hp) _
      · intro n hle
        exact hfresh n (Nat.le_trans (Nat.le_add_right _ _) hle)
  | submit answer =>
      obtain ⟨e, states, newStates, hphase, hcase⟩ := submit_cases h
      have hentries : w.phase.entries = newStates ++ e :: states := by rw [hphase]; rfl
      have hnew : ∀ n, w.received ≤ n → e.serial ≠ n := fun n =>
        hn.ne_of_received_le (by rw [hentries]; simp)
      have hne : ∀ e₁ ∈ newStates ++ states, e.serial ≠ e₁.serial := fun e₁ =>
        hn.ne_of_mem hentries
      rw [hentries] at hentry
      simp only [List.mem_append, List.mem_cons, or_imp, forall_and, forall_eq] at hentry
      obtain ⟨hfront, he, hrest⟩ := hentry
      rcases hcase with ⟨m, id, block, hm, -, rfl⟩ | ⟨m, id, -, rfl⟩ | ⟨e', he', hsame, rfl⟩
      · refine ⟨?_, fun n hle m => hR.other (hnew n hle) (hfresh n hle m)⟩
        intro e₁ he₁
        simp only [Phase.entries, List.mem_append, List.mem_singleton] at he₁
        rcases he₁ with (hmem | rfl) | hmem
        · exact hR.other (hne e₁ (by simp [hmem])) (hfront e₁ hmem)
        · obtain ⟨n, state⟩ := e
          cases hm
          exact hR.submitted he
        · exact hR.other (hne e₁ (by simp [hmem])) (hrest e₁ hmem)
      · exact ⟨by simp [Phase.entries], fun n hle m => hR.other (hnew n hle) (hfresh n hle m)⟩
      · refine ⟨?_, hfresh⟩
        intro e₁ he₁
        simp only [Phase.entries, List.mem_append, List.mem_singleton] at he₁
        rcases he₁ with (hmem | rfl) | hmem
        · exact hfront e₁ hmem
        · rcases hsame with rfl | ⟨hidle, hidle'⟩
          · exact he
          · exact hR.idle hidle hidle' he' he
        · exact hrest e₁ hmem
  | scan answer =>
      obtain ⟨newStates, hphase, ⟨-, rfl⟩ | ⟨f, rfl, rfl⟩⟩ := scan_cases h
      · exact ⟨by simp [Phase.entries], hfresh⟩
      · refine ⟨?_, fun n hle m => hR.scanned (idle_pending n m) (hfresh n hle m)⟩
        intro e' he'
        rw [hphase] at hentry hsettle
        simp only [Phase.entries, List.append_nil] at hentry hsettle
        obtain ⟨e, hmem, hsome⟩ := List.mem_filterMap.mp he'
        exact hsettle f rfl e hmem e' hsome (hentry e hmem)

/-- A submitted message waits for its status, and no other message does. -/
def Waits (log : List Event) (e : Entry) : Prop :=
  match e.state with
  | .submitted _ id b => ∃ block, b = block.toNat ∧ waiting log e.serial = some (id, block)
  | _ => waiting log e.serial = none

/-- A message that is not with the chain was not submitted, and no other message was submitted
more than once. -/
def SubmittedOnce (log : List Event) (e : Entry) : Prop :=
  submissions log e.serial ≤ 1 ∧ (e.idle → submissions log e.serial = 0)

theorem waits_of_idle {log : List Event} {e : Entry} (h : e.idle) :
    Waits log e ↔ waiting log e.serial = none := by
  obtain ⟨n, state⟩ := e
  cases state with
  | pending m => rfl
  | failed m => rfl
  | submitted m id b => exact absurd rfl (h m id b)

theorem waits_follows : Follows Waits where
  other := by
    intro log n id b e hne h
    simpa only [Waits, waiting, if_neg hne] using h
  submitted := by
    intro log n m id block _
    exact ⟨block, rfl, by simp [waiting]⟩
  idle := by
    intro log e e' he he' hserial h
    rw [waits_of_idle he']
    rw [waits_of_idle he] at h
    rw [hserial, h]
  scanned := by
    intro log status e he h
    rw [waits_of_idle he] at h ⊢
    simp [waiting, h]

theorem submittedOnce_follows : Follows SubmittedOnce where
  other := by
    intro log n id b e hne h
    simpa only [SubmittedOnce, submissions, if_neg hne, Nat.zero_add] using h
  submitted := by
    intro log n m id block h
    have hzero : submissions log n = 0 := h.2 (idle_pending n m)
    refine ⟨by simp [submissions, hzero], ?_⟩
    intro hidle
    exact absurd rfl (hidle m id block.toNat)
  idle := by
    intro log e e' he _ hserial h
    have hzero := h.2 he
    simp [SubmittedOnce, hserial, hzero]
  scanned := by
    intro log status e _ h
    exact h

/-- What a scan leaves of a message that it answers: nothing changes for one that is not with
the chain, a failed one becomes pending, and one is left alone where the sum wraps around. -/
theorem settle_of_answered {f : Finalized} (hans : Answered w f) {e e' : Entry}
    (hmem : e ∈ w.phase.entries)
    (h : settleEntry (statusOf w.latestProcessed f) f.block e = some e') :
    (e' = e ∧ ∀ m id b, e.state = .submitted m id b → statusOf w.latestProcessed f id = none) ∨
      ∃ m id b, e.state = .submitted m id b ∧ e' = ⟨e.serial, .pending m⟩ ∧
        statusOf w.latestProcessed f id = some .failed := by
  obtain ⟨n, state⟩ := e
  cases state with
  | pending m =>
      cases h
      exact .inl ⟨rfl, by simp⟩
  | failed m =>
      cases h
      exact .inl ⟨rfl, by simp⟩
  | submitted m id b =>
      simp only [settleEntry, settle] at h
      cases hst : statusOf w.latestProcessed f id with
      | none =>
          obtain ⟨-, hle⟩ := (hans n m id b hmem).resolve_left (not_not_intro hst)
          simp only [hst, if_neg (Nat.not_lt.mpr hle), Option.map_some, Option.some.injEq] at h
          refine .inl ⟨h.symm, ?_⟩
          intro m' id' b' heq
          cases heq
          exact hst
      | some st =>
          cases st with
          | success => simp [hst] at h
          | notExecuted => simp [hst] at h
          | failed =>
              simp only [hst, Option.map_some, Option.some.injEq] at h
              exact .inr ⟨m, id, b, rfl, h.symm, hst⟩

theorem waits_of_settle {f : Finalized} (hans : Answered w f) {e e' : Entry}
    (hmem : e ∈ w.phase.entries)
    (h : settleEntry (statusOf w.latestProcessed f) f.block e = some e') (hw : Waits w.log e) :
    Waits (.scanned (statusOf w.latestProcessed f) :: w.log) e' := by
  rcases settle_of_answered hans hmem h with ⟨rfl, hnone⟩ | ⟨m, id, b, hstate, rfl, hfailed⟩
  · obtain ⟨n, state⟩ := e'
    cases state with
    | pending m => exact waits_follows.scanned (by simp [Entry.idle]) hw
    | failed m => exact waits_follows.scanned (by simp [Entry.idle]) hw
    | submitted m id b =>
        obtain ⟨block, rfl, hwait⟩ := hw
        exact ⟨block, rfl, by simp [waiting, hwait, hnone m id _ rfl]⟩
  · simp only [Waits, hstate] at hw
    obtain ⟨block, -, hwait⟩ := hw
    simp [Waits, waiting, hwait, hfailed]

/-! ## runs -/

/-- The scans of a run all answer. -/
def AllAnswered (past : List (Task × Action)) : Prop :=
  ∀ w f, (w, Action.scan (some f)) ∈ past → Answered w f

theorem Tracked.initial {R : List Event → Entry → Prop} (hR : ∀ n m, R [] ⟨n, .pending m⟩)
    (h : Initial w) : Tracked R w :=
  ⟨by simp [h.phase, Phase.entries], fun n _ m => h.log ▸ hR n m⟩

/-- As long as the scans answer, only the messages that are with the chain wait for a status. -/
theorem tracked_waits (h : History step Initial past s) (hans : AllAnswered past) :
    Tracked Waits s := by
  induction h with
  | start hs => exact .initial (fun _ _ => rfl) hs
  | @next w w' past a hpast hstep ih =>
      have hbefore : AllAnswered past := fun w f hmem => hans w f (List.mem_cons_of_mem _ hmem)
      refine (ih hbefore).next waits_follows (.of_history hpast) ?_ hstep
      rintro f rfl e hmem e' hsome hw
      exact waits_of_settle (hans w f List.mem_cons_self) hmem hsome hw

/-- A step submits a message that is not with the chain, or nothing. -/
theorem submissions_step (hstep : step w a = some w') :
    (∀ n, submissions w'.log n = submissions w.log n) ∨
      ∃ e ∈ w.phase.entries, e.idle ∧
        ∀ n, submissions w'.log n = (if e.serial = n then 1 else 0) + submissions w.log n := by
  cases a with
  | collect messages =>
      obtain ⟨states, -, rfl⟩ := collect_cases hstep
      exact .inl fun _ => rfl
  | submit answer =>
      obtain ⟨e, states, newStates, hphase, hcase⟩ := submit_cases hstep
      have hmem : e ∈ w.phase.entries := by simp [hphase, Phase.entries]
      rcases hcase with ⟨m, id, block, hm, -, rfl⟩ | ⟨m, id, hm, rfl⟩ | ⟨e', -, -, rfl⟩
      · exact .inr ⟨e, hmem, by simp [Entry.idle, hm], fun _ => rfl⟩
      · exact .inr ⟨e, hmem, by simp [Entry.idle, hm], fun _ => rfl⟩
      · exact .inl fun _ => rfl
  | scan answer =>
      obtain ⟨newStates, -, ⟨-, rfl⟩ | ⟨f, -, rfl⟩⟩ := scan_cases hstep
      · exact .inl fun _ => rfl
      · exact .inl fun _ => rfl

/-- As long as the scans answer promptly, no message is submitted twice. -/
theorem submissions_le_one (h : History step Initial past s) (hans : AllAnswered past)
    (hprompt : Prompt past) :
    Tracked SubmittedOnce s ∧ ∀ n, submissions s.log n ≤ 1 := by
  induction h with
  | start hs =>
      refine ⟨.initial (fun _ _ => by simp [SubmittedOnce, submissions]) hs, ?_⟩
      intro n
      simp [hs.log, submissions]
  | @next w w' past a hpast hstep ih =>
      obtain ⟨htracked, hle⟩ := ih (fun w f hmem => hans w f (List.mem_cons_of_mem _ hmem))
        (fun w f hmem => hprompt w f (List.mem_cons_of_mem _ hmem))
      refine ⟨htracked.next submittedOnce_follows (.of_history hpast) ?_ hstep, ?_⟩
      · rintro f rfl e hmem e' hsome honce
        rcases settle_of_answered (hans w f List.mem_cons_self) hmem hsome with
          ⟨rfl, -⟩ | ⟨m, id, b, hstate, -, hfailed⟩
        · exact honce
        · have hentry : (⟨e.serial, .submitted m id b⟩ : Entry) ∈ w.phase.entries := hstate ▸ hmem
          exact absurd hfailed (hprompt w f List.mem_cons_self _ m id b hentry).2
      · intro n
        rcases submissions_step hstep with hsame | ⟨e, hmem, hidle, hmore⟩
        · rw [hsame]
          exact hle n
        · rw [hmore]
          split
          · next heq =>
              have hzero := (htracked.entry e hmem).2 hidle
              rw [← heq, hzero]
          · rw [Nat.zero_add]
            exact hle n

/-- The timeout is kept in the runs whose scans answer, and in no others. -/
theorem resent_after_timeout_iff (h : History step Initial past s) :
    ResentAfterTimeout past s ↔ AllAnswered past := by
  constructor
  · intro hkeeps w f hmem n m id b hentry
    by_cases hstatus : statusOf w.latestProcessed f id = none
    · refine .inr ?_
      obtain ⟨before, w', hbefore, hstep, -⟩ := h.of_mem hmem
      refine (decision_agrees_iff b f.block).mp ?_
      rw [← pending_mem_iff (.of_history hbefore) hstep hentry hstatus]
      exact hkeeps.pending_iff w f w' hmem hstep n m id b hentry hstatus
    · exact .inl hstatus
  · intro hans
    refine ⟨?_, ?_, fun hprompt => (submissions_le_one h hans hprompt).2⟩
    · intro w f w' hmem hstep n m id b hentry hstatus
      obtain ⟨before, -, hbefore, -⟩ := h.of_mem hmem
      rw [pending_mem_iff (.of_history hbefore) hstep hentry hstatus, decision_agrees_iff]
      exact (hans w f hmem n m id b hentry).resolve_left (not_not_intro hstatus)
    · intro w id' block hmem n m states newStates hphase id b hwaiting
      obtain ⟨before, -, hbefore, -, hsub⟩ := h.of_mem hmem
      have htracked := tracked_waits hbefore fun w f hw => hans w f (hsub hw)
      have hnone : waiting w.log n = none := by
        refine (waits_of_idle (idle_pending n m)).mp (htracked.entry _ ?_)
        simp [hphase, Phase.entries]
      simp [hnone] at hwaiting

def sampleProof : HandleMessage := ⟨[1], 1⟩

def sampleTask : Task := ⟨.top [], 5, 0, []⟩

/-- A proof is submitted in block 10, and the scan of blocks 6 to 20 finds it dispatched. -/
theorem resent_after_timeout_iff_sample : ∃ past s, History step Initial past s ∧
    ResentAfterTimeout past s ∧ submissions s.log 0 = 1 := by
  have hstart : History step Initial [] sampleTask := .start ⟨rfl, rfl, rfl⟩
  have hcollect := hstart.next (a := .collect [sampleProof]) rfl
  have hsubmit := hcollect.next (a := .submit (.ok 7 (some 10))) rfl
  have hscan := hsubmit.next
    (a := .scan (some ⟨20, fun block => if block = 11 then [(7, .success)] else []⟩)) rfl
  refine ⟨_, _, hscan, (resent_after_timeout_iff hscan).mpr ?_, by decide⟩
  intro w f hmem n m id b hentry
  rcases List.mem_cons.mp hmem with heq | hold
  · cases heq
    have hsubmitted : (⟨n, .submitted m id b⟩ : Entry) = ⟨0, .submitted sampleProof 7 10⟩ :=
      List.mem_singleton.mp hentry
    cases hsubmitted
    exact .inl (by decide)
  · simp at hold

/-- A proof is submitted in block 10.  Block 5 is the latest that is finalized, so the proof
becomes pending at once, and it is submitted again in block 11. -/
theorem resent_at_once : ¬ ∀ past s, History step Initial past s → ResentAfterTimeout past s := by
  intro hall
  have hstart : History step Initial [] sampleTask := .start ⟨rfl, rfl, rfl⟩
  have hcollect := hstart.next (a := .collect [sampleProof]) rfl
  have hsubmit := hcollect.next (a := .submit (.ok 7 (some 10))) rfl
  have hscan := hsubmit.next (a := .scan (some ⟨5, fun _ => []⟩)) rfl
  have hcollect' := hscan.next (a := .collect []) rfl
  have hsubmit' := hcollect'.next (a := .submit (.ok 8 (some 11))) rfl
  have hresent := (hall _ _ hsubmit').resent _ _ _ List.mem_cons_self _ _ _ _ rfl 7 10 (by decide)
  exact absurd hresent (by decide)

end GearBridges.ProofStorage.ResendTimeout
