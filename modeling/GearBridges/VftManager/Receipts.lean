import GearBridges.VftManager.Refunds

/-!
# VftManager.Receipts

How often one Ethereum transaction can be credited.

`submit_receipt` looks for the key of the transaction before it sends the
message that credits the receiver, and the key is stored only by the reply hook
of that message.  A second submission in between credits the receiver again
(`credit_twice`); submissions that do not overlap credit it once
(`credit_unique`), as long as no key has been evicted.
-/

namespace GearBridges.VftManager

open Transition

variable {prog : Program} {w w' : World} {a : Action}

/-- Message `id` was sent for the transaction and has been executed successfully. -/
def World.credited (w : World) (key : TxKey) (id : MessageId) : Bool :=
  (w.messages id).any fun m => decide (m.origin = .receipt key) && m.delivery.succeeded

theorem World.credited_iff {key : TxKey} {id : MessageId} : w.credited key id = true ↔
    ∃ m, w.messages id = some m ∧ m.origin = .receipt key ∧ m.delivery.succeeded = true := by
  simp [credited, Option.any_eq_true]

/-- The key of the transaction that a message has credited, once the reply has been
processed. -/
def World.processedKey? (w : World) (id : MessageId) : Option TxKey :=
  match w.messages id with
  | some m => match m.origin, m.delivery with
    | .receipt key, .processed r => if r.isSuccess then some key else none
    | _, _ => none
  | none => none

/-- The transactions that have been processed so far, evicted or not. -/
def World.processedKeys (w : World) : Finset TxKey :=
  ((List.range w.nextId).filterMap w.processedKey?).toFinset

theorem World.processedKey?_eq_some {id : MessageId} {key : TxKey} :
    w.processedKey? id = some key ↔ ∃ m r, w.messages id = some m ∧ m.origin = .receipt key ∧
      m.delivery = .processed r ∧ r.isSuccess = true := by
  unfold processedKey?
  cases hm : w.messages id with
  | none => simp
  | some m => cases ho : m.origin <;> cases hd : m.delivery <;> simp [ho, hd, and_comm]

theorem World.mem_processedKeys (hf : Fresh w) {key : TxKey} :
    key ∈ w.processedKeys ↔ ∃ id m r, w.messages id = some m ∧ m.origin = .receipt key ∧
      m.delivery = .processed r ∧ r.isSuccess = true := by
  unfold processedKeys
  simp only [List.mem_toFinset, List.mem_filterMap, List.mem_range, processedKey?_eq_some]
  constructor
  · rintro ⟨id, -, m, r, h⟩
    exact ⟨id, m, r, h⟩
  · rintro ⟨id, m, r, hm, h⟩
    exact ⟨id, hf.message_lt hm, m, r, hm, h⟩

/-- A message for the transaction has not been executed, or has been executed
successfully without its reply being processed. -/
def Delivery.crediting : Delivery → Bool
  | .sent => true
  | .executed r => r.isSuccess
  | _ => false

/-- A credit of the transaction is on its way. -/
def World.creditPending (w : World) (key : TxKey) : Bool :=
  (List.range w.nextId).any fun id =>
    (w.messages id).any fun m => decide (m.origin = .receipt key) && m.delivery.crediting

theorem World.creditPending_of_crediting (hf : Fresh w) {key : TxKey} {id : MessageId}
    {m : Message} (hm : w.messages id = some m) (ho : m.origin = .receipt key)
    (hc : m.delivery.crediting = true) : w.creditPending key = true := by
  unfold creditPending
  rw [List.any_eq_true]
  refine ⟨id, List.mem_range.mpr (hf.message_lt hm), ?_⟩
  simp [hm, ho, hc]

/-- The steps under which credits do not overlap: a submission that passes the
checks comes when no credit of its transaction is on its way, and with a config
that lets reply hooks be registered. -/
def submissionsApart (prog : Program) (w : World) : Action → Bool
  | .submitReceipt sender key receipt _ => match checkReceipt prog w sender key receipt with
      | .error _ => true
      | .ok _ => decide (0 < w.config.replyTimeout) && decide (0 < w.config.gasForReplyDeposit) &&
          !w.creditPending key
  | _ => true

/-! ## the functions of submit_receipt -/

/-- A submission that passes the checks is not recorded as processed. -/
theorem not_mem_of_checkReceipt {sender token : ActorId} {key : TxKey} {receipt : Option Receipt}
    {event : BridgingRequested} {supply : TokenSupply}
    (h : checkReceipt prog w sender key receipt = .ok (token, event, supply)) :
    key ∉ w.transactions := by
  unfold checkReceipt at h
  intro hkey
  repeat' split at h
  all_goals contradiction

/-- The calls of `mint` and `unlock`. -/
def Call.credits : Call → Bool
  | .mint .. | .transferFrom .. => true
  | _ => false

theorem receiptCall_credits (event : BridgingRequested) (supply : TokenSupply) :
    (receiptCall prog event supply).credits = true := by
  cases supply <;> rfl

/-- The hook records the key exactly when the call has succeeded. -/
theorem handleReply_eq {transactions : Finset TxKey} {call : Call} {key : TxKey} {r : Reply}
    (hc : call.credits = true) (ha : call.admits r = true) :
    handleReply prog transactions call key r =
      if r.isSuccess then
        some (insert key (if prog.txHistoryDepth ≤ transactions.card then popFirst transactions
          else transactions))
      else none := by
  unfold handleReply
  cases call with
  | mint receiver amount => cases r <;> simp_all [Call.admits, Reply.isSuccess]
  | transferFrom sender receiver amount =>
      cases r with
      | bool b => cases b <;> simp [Reply.isSuccess]
      | _ => simp_all [Call.admits, Reply.isSuccess]
  | _ => contradiction

theorem popFirst_subset (transactions : Finset TxKey) : popFirst transactions ⊆ transactions := by
  unfold popFirst
  split
  · exact Finset.erase_subset _ _
  · exact Finset.Subset.refl _

/-! ## messages of a transaction -/

attribute [grind] Delivery.crediting Call.credits

/-- A message that has not been executed, or has been executed successfully. -/
def Delivery.Live (d : Delivery) : Prop := d = .sent ∨ d.succeeded = true

attribute [grind] Delivery.Live

theorem posted_cases {messages : MessageId → Option Message} {i id : MessageId} {m₁ m : Message}
    (h : Function.update messages i (some m₁) id = some m) :
    messages id = some m ∨ (id = i ∧ m₁ = m) := by
  rw [Function.update_apply] at h
  split at h
  · exact .inr ⟨‹_›, Option.some.inj h⟩
  · exact .inl h

/-- Where a message of the transaction comes from: it was there before, or the step is a
submission that passes the checks. -/
theorem Effect.receipt_cases (h : Effect prog w a w') {id : MessageId} {m : Message} {key : TxKey}
    (hm : w'.messages id = some m) (ho : m.origin = .receipt key) :
    (∃ m₀, w.messages id = some m₀ ∧ m₀.origin = .receipt key ∧ m₀.destination = m.destination ∧
      m₀.call = m.call ∧ m₀.hooked = m.hooked ∧ (m.delivery.Live → m₀.delivery.Live)) ∨
    ∃ sender submitted sendOk token event supply hooked,
      a = .submitReceipt sender key submitted sendOk ∧ id = w.nextId + 1 ∧
      checkReceipt prog w sender key submitted = .ok (token, event, supply) ∧
      m = receiptMessage prog key token event supply hooked ∧
      (hooked = true ∨ w.config.replyTimeout = 0 ∨ w.config.gasForReplyDeposit = 0) := by
  cases h with
  | quiet => grind
  | submitUnhooked hcheck hconfig =>
      rcases posted_cases hm with hold | ⟨hid, rfl⟩
      · exact .inl ⟨m, hold, ho, rfl, rfl, rfl, fun h => h⟩
      · cases ho
        exact .inr ⟨_, _, _, _, _, _, _, rfl, hid, hcheck, rfl, .inr hconfig⟩
  | submit hcheck =>
      rcases posted_cases hm with hold | ⟨hid, rfl⟩
      · exact .inl ⟨m, hold, ho, rfl, rfl, rfl, fun h => h⟩
      · cases ho
        exact .inr ⟨_, _, _, _, _, _, _, rfl, hid, hcheck, rfl, .inl rfl⟩
  | _ => simp at hm; grind

/-- A guarded step sends messages for a transaction with a hook only. -/
theorem Effect.receipt_hooked (h : Effect prog w a w') (hok : submissionsApart prog w a = true)
    {id : MessageId} {m : Message} {key : TxKey} (hm : w'.messages id = some m)
    (ho : m.origin = .receipt key) :
    (∃ m₀, w.messages id = some m₀ ∧ m₀.origin = .receipt key ∧ m₀.hooked = m.hooked ∧
      m₀.call = m.call ∧ (m.delivery.Live → m₀.delivery.Live)) ∨
    (m.hooked = true ∧ m.call.credits = true) := by
  rcases h.receipt_cases hm ho with ⟨m₀, hm₀, ho₀, -, hcall, hhooked, hback⟩ |
      ⟨sender, submitted, sendOk, token, event, supply, hooked, rfl, -, hcheck, rfl, hconfig⟩
  · exact .inl ⟨m₀, hm₀, ho₀, hhooked, hcall, hback⟩
  · refine .inr ⟨hconfig.resolve_right ?_, receiptCall_credits event supply⟩
    simp [submissionsApart, hcheck] at hok
    omega

/-- The hook does not panic on a success. -/
theorem Effect.trapped_success (hp : Phases prog w) (h : Effect prog w a w') {id : MessageId}
    {m : Message} {key : TxKey} {r : Reply} (hm : w'.messages id = some m)
    (ho : m.origin = .receipt key) (ht : m.delivery = .trapped r) (hs : r.isSuccess = true)
    (hcredits : ∀ {m₀}, w.messages id = some m₀ → m₀.origin = .receipt key → m₀.delivery.Live →
      m₀.call.credits = true) : w.messages id = some m := by
  cases h with
  | quiet => grind
  | @hookPanicked id₁ m₁ r₁ hm₁ hr₁ hhook =>
      have hadmits := hp.admits hm₁ (by rw [hr₁]; rfl)
      have heq := @handleReply_eq prog w.transactions m₁.call key r₁
      simp at hm
      unfold runHook at hhook
      grind
  | _ => simp at hm; grind

/-- A guarded submission that passes the checks comes when no message of its transaction is
live, as long as successes are not trapped and processed ones are remembered. -/
theorem not_live_of_apart (hf : Fresh w) {sender token : ActorId} {key : TxKey}
    {submitted : Option Receipt} {sendOk : Bool} {event : BridgingRequested} {supply : TokenSupply}
    (hok : submissionsApart prog w (.submitReceipt sender key submitted sendOk) = true)
    (hcheck : checkReceipt prog w sender key submitted = .ok (token, event, supply))
    {id : MessageId} {m : Message} (hm : w.messages id = some m) (ho : m.origin = .receipt key)
    (htrapped : ∀ r, m.delivery = .trapped r → r.isSuccess = false)
    (hrecorded : ∀ r, m.delivery = .processed r → r.isSuccess = false) : ¬ m.delivery.Live := by
  have hidle : m.delivery.crediting = false := by
    by_contra hcrediting
    have hpending := World.creditPending_of_crediting hf hm ho (by simpa using hcrediting)
    simp [submissionsApart, hcheck, hpending] at hok
  cases hd : m.delivery <;> grind

/-- A step keeps the live messages of a transaction one and the same, when it sends a message
only if none of them is live. -/
theorem Effect.live_unique (h : Effect prog w a w') {key : TxKey}
    (hunique : ∀ {id id' m m'}, w.messages id = some m → w.messages id' = some m' →
      m.origin = .receipt key → m'.origin = .receipt key → m.delivery.Live → m'.delivery.Live →
      id = id')
    (hfailed : ∀ {sender submitted sendOk token event supply},
      a = .submitReceipt sender key submitted sendOk →
      checkReceipt prog w sender key submitted = .ok (token, event, supply) →
      ∀ {id m}, w.messages id = some m → m.origin = .receipt key → ¬ m.delivery.Live)
    {id id' : MessageId} {m m' : Message} (hm : w'.messages id = some m)
    (hm' : w'.messages id' = some m') (ho : m.origin = .receipt key) (ho' : m'.origin = .receipt key)
    (hlive : m.delivery.Live) (hlive' : m'.delivery.Live) : id = id' := by
  rcases h.receipt_cases hm ho with ⟨m₀, hm₀, ho₀, -, -, -, hback⟩ |
      ⟨_, _, _, _, _, _, _, ha, hid, hcheck, -⟩
  · rcases h.receipt_cases hm' ho' with ⟨m₁, hm₁, ho₁, -, -, -, hback'⟩ |
        ⟨_, _, _, _, _, _, _, ha, -, hcheck, -⟩
    · exact hunique hm₀ hm₁ ho₀ ho₁ (hback hlive) (hback' hlive')
    · exact absurd (hback hlive) (hfailed ha hcheck hm₀ ho₀)
  · rcases h.receipt_cases hm' ho' with ⟨m₁, hm₁, ho₁, -, -, -, hback'⟩ |
        ⟨_, _, _, _, _, _, _, -, hid', -⟩
    · exact absurd (hback' hlive') (hfailed ha hcheck hm₁ ho₁)
    · exact hid.trans hid'.symm

/-! ## the invariant of guarded runs -/

/-- Every credit has a reply hook, and only processed transactions are recorded. -/
structure Credits (w : World) : Prop where
  hooked : ∀ {id m key}, w.messages id = some m → m.origin = .receipt key →
    m.hooked = true ∧ m.call.credits = true
  trapped : ∀ {id m key r}, w.messages id = some m → m.origin = .receipt key →
    m.delivery = .trapped r → r.isSuccess = false
  processed : ∀ {key}, key ∈ w.transactions → ∃ id m r, w.messages id = some m ∧
    m.origin = .receipt key ∧ m.delivery = .processed r ∧ r.isSuccess = true

/-- Processed transactions are recorded, and credits of one transaction that are
pending or successful are one and the same. -/
structure OneCredit (w : World) : Prop where
  recorded : ∀ {id m key r}, w.messages id = some m → m.origin = .receipt key →
    m.delivery = .processed r → r.isSuccess = true → key ∈ w.transactions
  unique : ∀ {id id' m m' key}, w.messages id = some m → w.messages id' = some m' →
    m.origin = .receipt key → m'.origin = .receipt key →
    m.delivery = .sent ∨ m.delivery.succeeded = true →
    m'.delivery = .sent ∨ m'.delivery.succeeded = true → id = id'

theorem Credits.seed (config : InitConfig) (actorId : ActorId) :
    Credits (.seed config actorId) := by
  constructor <;> simp [World.seed]

theorem OneCredit.seed (config : InitConfig) (actorId : ActorId) :
    OneCredit (.seed config actorId) := by
  constructor <;> simp [World.seed]

theorem Credits.hooked_step (hc : Credits w) (hok : submissionsApart prog w a = true)
    (h : Effect prog w a w') {id : MessageId} {m : Message} {key : TxKey}
    (hm : w'.messages id = some m) (ho : m.origin = .receipt key) :
    m.hooked = true ∧ m.call.credits = true := by
  rcases h.receipt_hooked hok hm ho with ⟨m₀, hm₀, ho₀, hhooked, hcall, -⟩ | hnew
  · rw [← hhooked, ← hcall]
    exact hc.hooked hm₀ ho₀
  · exact hnew

/-- The reply of a credit is recorded exactly when it is a success. -/
theorem Credits.hook_eq (hp : Phases prog w) (hc : Credits w) {id : MessageId} {m : Message}
    {key : TxKey} {r : Reply} (hm : w.messages id = some m) (hr : m.delivery = .executed r)
    (ho : m.origin = .receipt key) :
    handleReply prog w.transactions m.call key r =
      if r.isSuccess then
        some (insert key (if prog.txHistoryDepth ≤ w.transactions.card then
          popFirst w.transactions else w.transactions))
      else none :=
  handleReply_eq (hc.hooked hm ho).2 (hp.admits hm (by rw [hr]; rfl))

theorem Credits.trapped_step (hp : Phases prog w) (hc : Credits w) (h : Effect prog w a w')
    {id : MessageId} {m : Message} {key : TxKey} {r : Reply} (hm : w'.messages id = some m)
    (ho : m.origin = .receipt key) (ht : m.delivery = .trapped r) : r.isSuccess = false := by
  by_contra hs
  rw [Bool.not_eq_false] at hs
  have hold := h.trapped_success hp hm ho ht hs fun hm₀ ho₀ _ => (hc.hooked hm₀ ho₀).2
  rw [hc.trapped hold ho ht] at hs
  contradiction

/-- What is processed stays processed. -/
theorem Effect.processed (h : Effect prog w a w') (hf : Fresh w) {id : MessageId} {m : Message}
    {key : TxKey} {r : Reply} (hm : w.messages id = some m) (ho : m.origin = .receipt key)
    (hr : m.delivery = .processed r) :
    ∃ m', w'.messages id = some m' ∧ m'.origin = .receipt key ∧ m'.delivery = .processed r := by
  obtain ⟨m', hm', hlater⟩ := h.message_later hf hm
  exact ⟨m', hm', hlater.origin.trans ho, hlater.processed r hr⟩

theorem Credits.processed_step (hf : Fresh w) (hp : Phases prog w) (hc : Credits w)
    (h : Effect prog w a w') {key : TxKey} (hkey : key ∈ w'.transactions) :
    ∃ id m r, w'.messages id = some m ∧ m.origin = .receipt key ∧ m.delivery = .processed r ∧
      r.isSuccess = true := by
  by_cases hold : key ∈ w.transactions
  · obtain ⟨id, m, r, hm, ho, hr, hs⟩ := hc.processed hold
    obtain ⟨m', hm', ho', hr'⟩ := h.processed hf hm ho hr
    exact ⟨id, m', r, hm', ho', hr', hs⟩
  · cases h with
    | quiet _ _ htransactions => rw [htransactions] at hkey; contradiction
    | @receiptAnswered id key₁ m r t hm hr ho _ hhook =>
        rw [hc.hook_eq hp hm hr ho] at hhook
        split at hhook
        · rename_i hs
          simp only [World.deliver_transactions] at hkey
          cases hhook
          rcases Finset.mem_insert.mp hkey with rfl | hkey
          · exact ⟨id, { m with delivery := .processed r }, r, by simp, ho, rfl, hs⟩
          · refine absurd ?_ hold
            split at hkey
            · exact popFirst_subset _ hkey
            · exact hkey
        · contradiction
    | _ => simp at hkey; contradiction

theorem Credits.step (hf : Fresh w) (hp : Phases prog w) (hc : Credits w)
    (hok : submissionsApart prog w a = true) (h : Effect prog w a w') : Credits w' where
  hooked := hc.hooked_step hok h
  trapped := Credits.trapped_step hp hc h
  processed := Credits.processed_step hf hp hc h

theorem OneCredit.recorded_step (hp : Phases prog w) (hc : Credits w) (ho : OneCredit w)
    (hdepth : w.transactions.card < prog.txHistoryDepth) (h : Effect prog w a w')
    {id : MessageId} {m : Message} {key : TxKey} {r : Reply} (hm : w'.messages id = some m)
    (hk : m.origin = .receipt key) (hr : m.delivery = .processed r) (hs : r.isSuccess = true) :
    key ∈ w'.transactions := by
  have hrecorded := @ho.recorded
  have hhooked := @hc.hooked
  cases h with
  | quiet => grind
  | receiptAnswered hm₁ hr₁ ho₁ _ hhook =>
      rw [hc.hook_eq hp hm₁ hr₁ ho₁, if_neg (Nat.not_le.mpr hdepth)] at hhook
      simp at hm ⊢
      grind
  | _ => simp at hm ⊢; grind

/-- Before a guarded submission sends a credit, every earlier one has failed. -/
theorem OneCredit.submit_failed (hf : Fresh w) (hc : Credits w) (ho : OneCredit w)
    {sender token : ActorId} {key : TxKey} {receipt : Option Receipt} {sendOk : Bool}
    {event : BridgingRequested} {supply : TokenSupply}
    (hok : submissionsApart prog w (.submitReceipt sender key receipt sendOk) = true)
    (hcheck : checkReceipt prog w sender key receipt = .ok (token, event, supply))
    {id : MessageId} {m : Message} (hm : w.messages id = some m) (hk : m.origin = .receipt key) :
    ¬ m.delivery.Live := by
  refine not_live_of_apart hf hok hcheck hm hk (fun r hr => hc.trapped hm hk hr) ?_
  intro r hr
  by_contra hs
  exact not_mem_of_checkReceipt hcheck (ho.recorded hm hk hr (by simpa using hs))

theorem OneCredit.unique_step (hf : Fresh w) (hc : Credits w) (ho : OneCredit w)
    (hok : submissionsApart prog w a = true) (h : Effect prog w a w') {id id' : MessageId}
    {m m' : Message} {key : TxKey} (hm : w'.messages id = some m)
    (hm' : w'.messages id' = some m') (hk : m.origin = .receipt key)
    (hk' : m'.origin = .receipt key) (hs : m.delivery = .sent ∨ m.delivery.succeeded = true)
    (hs' : m'.delivery = .sent ∨ m'.delivery.succeeded = true) : id = id' := by
  refine h.live_unique ho.unique ?_ hm hm' hk hk' hs hs'
  rintro sender submitted sendOk token event supply rfl hcheck id m hm hk
  exact ho.submit_failed hf hc hok hcheck hm hk

/-- The recorded transactions are among the processed ones. -/
theorem Credits.card_le (hf : Fresh w) (hc : Credits w) :
    w.transactions.card ≤ w.processedKeys.card :=
  Finset.card_le_card fun _ hkey => (World.mem_processedKeys hf).mpr (hc.processed hkey)

/-- Processed transactions only become more. -/
theorem Effect.processedKeys_subset (h : Effect prog w a w') (hf : Fresh w) :
    w.processedKeys ⊆ w'.processedKeys := by
  intro key hkey
  obtain ⟨id, m, r, hm, ho, hr, hs⟩ := (World.mem_processedKeys hf).mp hkey
  obtain ⟨m', hm', ho', hr'⟩ := h.processed hf hm ho hr
  exact (World.mem_processedKeys (hf.step h)).mpr ⟨id, m', r, hm', ho', hr', hs⟩

/-! ## credited once -/

/-- The guard `submissionsApart` as a relation between a world and the next action. -/
def SubmissionsApart (prog : Program) (w : World) (a : Action) : Prop :=
  submissionsApart prog w a = true

instance : ∀ (w : World) (a : Action), Decidable (SubmissionsApart prog w a) := fun w a =>
  inferInstanceAs (Decidable (submissionsApart prog w a = true))

theorem oneCredit_of_reachable (h : Reachable (step prog) (SubmissionsApart prog) Seeded w) :
    Fresh w ∧ Phases prog w ∧ Credits w ∧
      (w.processedKeys.card < prog.txHistoryDepth → OneCredit w) := by
  refine Reachable.invariant (I := fun w => Fresh w ∧ Phases prog w ∧ Credits w ∧
    (w.processedKeys.card < prog.txHistoryDepth → OneCredit w)) ?_ ?_ h
  · rintro s ⟨config, actorId, rfl⟩
    exact ⟨.seed config actorId, .seed config actorId, .seed config actorId,
      fun _ => .seed config actorId⟩
  · rintro s a s' ⟨hf, hp, hc, ho⟩ hok hstep
    have heffect := step_effect hstep
    refine ⟨hf.step heffect, Phases.step hf hp heffect, Credits.step hf hp hc hok heffect, ?_⟩
    intro hdepth
    have hbefore : s.processedKeys.card < prog.txHistoryDepth :=
      lt_of_le_of_lt (Finset.card_le_card (heffect.processedKeys_subset hf)) hdepth
    have hcard : s.transactions.card < prog.txHistoryDepth :=
      lt_of_le_of_lt (hc.card_le hf) hbefore
    exact ⟨OneCredit.recorded_step hp hc (ho hbefore) hcard heffect,
      OneCredit.unique_step hf hc (ho hbefore) hok heffect⟩

/-- **Credited once**: in a run from the seeded state whose submissions do not
overlap, and as long as fewer than `TX_HISTORY_DEPTH` transactions have been
processed, two successfully executed credits of a transaction are the same
message. -/
theorem credit_unique (prog : Program) (w : World)
    (h : Reachable (step prog) (SubmissionsApart prog) Seeded w)
    (hdepth : w.processedKeys.card < prog.txHistoryDepth) (key : TxKey) (id id' : MessageId)
    (hc : w.credited key id = true) (hc' : w.credited key id' = true) : id = id' := by
  obtain ⟨-, -, -, hone⟩ := oneCredit_of_reachable h
  obtain ⟨m, hm, hk, hs⟩ := World.credited_iff.mp hc
  obtain ⟨m', hm', hk', hs'⟩ := World.credited_iff.mp hc'
  exact (hone hdepth).unique hm hm' hk hk' (.inr hs) (.inr hs')

/-- A receipt of a transfer to account `77` of a token that account `1` has mapped,
submitted by the historical proxy. -/
def sampleSubmission : Action :=
  .submitReceipt 9 (5, 0) (some ⟨true, [⟨7, some ⟨200, 77, 10⟩⟩]⟩) true

/-- A receipt submitted again after it has been processed is credited once, by
message `2`. -/
theorem credit_unique_resubmitted : ∃ w,
    Reachable (step (.deployed 3)) (SubmissionsApart (.deployed 3)) Seeded w ∧
      w.credited (5, 0) 2 = true ∧ ∀ id, w.credited (5, 0) id = true → 2 = id := by
  obtain ⟨w, hw, hr⟩ := exists_reachable_of_exec (step (.deployed 3))
    (SubmissionsApart (.deployed 3)) sampleSeed_seeded
    [.admin 1 (.mapVaraToEthAddress 100 200 .ethereum), sampleSubmission, .execute 2 .unit,
      .processReply 2, sampleSubmission]
    (fun w => w.credited (5, 0) 2 && decide (w.processedKeys.card < 50_000_000))
    (by decide +kernel)
  rw [Bool.and_eq_true, decide_eq_true_iff] at hr
  exact ⟨w, hw, hr.1, fun id hid => credit_unique _ w hw hr.2 (5, 0) 2 id hr.1 hid⟩

/-- A receipt submitted again before the reply of the first credit is credited
twice. -/
theorem credit_twice : ¬ ∀ (prog : Program) (w : World), Reachable (step prog) free Seeded w →
    w.processedKeys.card < prog.txHistoryDepth → ∀ key id id',
      w.credited key id = true → w.credited key id' = true → id = id' := by
  intro hclaim
  obtain ⟨w, hw, hr⟩ := exists_reachable_of_exec (step (.deployed 3)) free sampleSeed_seeded
    [.admin 1 (.mapVaraToEthAddress 100 200 .ethereum), sampleSubmission, sampleSubmission,
      .execute 2 .unit, .execute 4 .unit]
    (fun w => w.credited (5, 0) 2 && w.credited (5, 0) 4 &&
      decide (w.processedKeys.card < 50_000_000))
    (by decide +kernel)
  rw [Bool.and_eq_true, Bool.and_eq_true, decide_eq_true_iff] at hr
  have := hclaim _ w hw hr.2 (5, 0) 2 4 hr.1.1 hr.1.2
  contradiction

end GearBridges.VftManager
