import GearBridges.Lib.BoundedHistory
import GearBridges.VftManager.Receipts

/-!
# VftManager.TxHistory

What the history of processed Ethereum transactions remembers after keys have been
evicted.  A full history evicts its smallest key before the key of a reply is stored.  A
reply that comes late, for a key below the smallest one or for a key that is stored
already, makes the program accept the evicted transaction again (`evicted_accepted`).  As
long as keys come to a full history in order, what was processed once is refused for ever
(`processed_refused`), and a reply out of order is one that makes the program forget a key
(`handleReply_refuses_iff`).
-/

namespace GearBridges.VftManager

open Transition BoundedHistory

variable {prog : Program} {w w' : World} {a : Action}

/-! ## the history of the program -/

/-- What the reply hook does to the history. -/
theorem handleReply_some {transactions t : Finset TxKey} {call : Call} {key : TxKey} {r : Reply}
    (h : handleReply prog transactions call key r = some t) :
    r.isSuccess = true ∧ t = record prog.txHistoryDepth transactions key := by
  simp only [handleReply] at h
  split at h
  · exact ⟨rfl, (Option.some.inj h).symm⟩
  · next b =>
      cases b with
      | false => contradiction
      | true => exact ⟨rfl, (Option.some.inj h).symm⟩
  · contradiction

/-- The checks of `submit_receipt` that come before the history is looked at. -/
def receiptSupported (w : World) (sender : ActorId) (receipt : Option Receipt) : Bool :=
  !w.state.isPaused && decide (sender = w.state.historicalProxyAddress) &&
    receipt.any fun r => r.isSuccess && (findBridgingRequested w.state r.logs).isSome

/-- A key that the history knows is refused. -/
theorem checkReceipt_of_refuses {sender : ActorId} {key : TxKey} {receipt : Option Receipt}
    (h : Refuses prog.txHistoryDepth w.transactions key) :
    ∃ e, checkReceipt prog w sender key receipt = .error e ∧
      (receiptSupported w sender receipt = true → e = .alreadyProcessed ∨ e = .transactionTooOld) := by
  unfold checkReceipt receiptSupported
  by_cases hpaused : w.state.isPaused = true
  · exact ⟨_, if_pos hpaused, by simp [hpaused]⟩
  by_cases hsender : sender = w.state.historicalProxyAddress
  · cases receipt with
    | none => exact ⟨.notSupportedEvent, by simp [hpaused, hsender], by simp⟩
    | some receipt =>
        by_cases hsuccess : receipt.isSuccess = true
        · cases hfind : findBridgingRequested w.state receipt.logs with
          | none => exact ⟨.notSupportedEvent, by simp [hpaused, hsender, hsuccess, hfind],
              by simp [hfind]⟩
          | some found =>
              by_cases hmem : key ∈ w.transactions
              · exact ⟨.alreadyProcessed, by simp [hpaused, hsender, hsuccess, hfind, hmem],
                  fun _ => .inl rfl⟩
              · obtain ⟨hfull, hs, hlt⟩ := h.resolve_left hmem
                have hbelow : belowFirst w.transactions key = true := by
                  rw [belowFirst, dif_pos hs]
                  exact decide_eq_true hlt
                exact ⟨.transactionTooOld,
                  by simp [hpaused, hsender, hsuccess, hfind, hmem, hfull, hbelow],
                  fun _ => .inr rfl⟩
        · exact ⟨.notSupportedEvent, by simp [hpaused, hsender, hsuccess], by simp [hsuccess]⟩
  · exact ⟨.notHistoricalProxy, by simp [hpaused, hsender], by simp [hsender]⟩

/-! ## runs -/

/-- The steps under which the history keeps its order: when a successful reply is
processed and the history is full, the key is the smallest stored one, or a new one above
it. -/
def historyOrderly (prog : Program) (w : World) : Action → Bool
  | .processReply id => match w.messages id with
      | some ⟨_, _, _, .receipt key, true, .executed r⟩ =>
          !r.isSuccess || decide (Orderly prog.txHistoryDepth w.transactions key)
      | _ => true
  | _ => true

/-- The guard `historyOrderly` as a relation between a world and the next action. -/
def HistoryOrderly (prog : Program) (w : World) (a : Action) : Prop :=
  historyOrderly prog w a = true

instance : ∀ (w : World) (a : Action), Decidable (HistoryOrderly prog w a) := fun w a =>
  inferInstanceAs (Decidable (historyOrderly prog w a = true))

/-- A step leaves the history alone, or records the key of a successful reply. -/
theorem Effect.transactions_cases (h : Effect prog w a w') :
    w'.transactions = w.transactions ∨
      ∃ key, w'.transactions = record prog.txHistoryDepth w.transactions key ∧
        (historyOrderly prog w a = true → Orderly prog.txHistoryDepth w.transactions key) := by
  cases h with
  | quiet _ _ htransactions => exact .inl htransactions
  | @receiptAnswered id key m r t hm hr ho hhooked hhook =>
      obtain ⟨hsuccess, rfl⟩ := handleReply_some hhook
      refine .inr ⟨key, rfl, ?_⟩
      obtain ⟨destination, value, call, origin, hooked, delivery⟩ := m
      subst hr ho hhooked
      intro hok
      simpa [historyOrderly, hm, hsuccess] using hok
  | _ => exact .inl rfl

/-- The history never holds more keys than its depth. -/
theorem card_transactions_le (hdepth : 0 < prog.txHistoryDepth)
    (h : Reachable (step prog) free Seeded w) : w.transactions.card ≤ prog.txHistoryDepth := by
  refine Reachable.invariant (I := fun w => w.transactions.card ≤ prog.txHistoryDepth) ?_ ?_ h
  · rintro s ⟨config, actorId, rfl⟩
    exact Nat.zero_le _
  · intro s a s' hcard _ hstep
    rcases (step_effect hstep).transactions_cases with hsame | ⟨key, hrecord, -⟩
    · rw [hsame]
      exact hcard
    · rw [hrecord]
      exact card_record_le hdepth hcard

/-- The history goes on knowing what it knows. -/
theorem Effect.refuses (hdepth : 0 < prog.txHistoryDepth) (h : Effect prog w a w')
    (hok : HistoryOrderly prog w a) {key : TxKey}
    (hr : Refuses prog.txHistoryDepth w.transactions key) :
    Refuses prog.txHistoryDepth w'.transactions key := by
  rcases h.transactions_cases with hsame | ⟨k, hrecord, hk⟩
  · rw [hsame]
    exact hr
  · rw [hrecord]
    exact hr.record hdepth (hk hok)

/-- What is refused stays refused. -/
theorem refuses_of_reachable (hdepth : 0 < prog.txHistoryDepth) {w₀ : World} {key : TxKey}
    (hkey : Refuses prog.txHistoryDepth w₀.transactions key)
    (h : Reachable (step prog) (HistoryOrderly prog) (· = w₀) w) :
    Refuses prog.txHistoryDepth w.transactions key := by
  refine Reachable.invariant (I := fun w => Refuses prog.txHistoryDepth w.transactions key) ?_ ?_ h
  · rintro s rfl
    exact hkey
  · intro s a s' hrefuses hok hstep
    exact (step_effect hstep).refuses hdepth hok hrefuses

/-- A successful reply takes nothing from what is refused exactly when its key comes in order. -/
theorem handleReply_refuses_iff (hdepth : 0 < prog.txHistoryDepth) {transactions t : Finset TxKey}
    {call : Call} {key : TxKey} {r : Reply} (hcard : transactions.card ≤ prog.txHistoryDepth)
    (h : handleReply prog transactions call key r = some t) :
    (∀ x, Refuses prog.txHistoryDepth transactions x → Refuses prog.txHistoryDepth t x) ↔
      Orderly prog.txHistoryDepth transactions key := by
  obtain ⟨-, rfl⟩ := handleReply_some h
  exact refuses_record_iff hdepth hcard

/-! ## processed transactions are refused -/

/-- **What was processed once is refused for ever**, for every depth of at least one: in
every run the history holds at most so many keys; and from the moment a key is stored, in
every run in which keys come to a full history in order, a submission for the key ends
with an error before anything is sent, and the error is one of the two that say why unless
the receipt is rejected earlier. -/
theorem processed_refused (prog : Program) (hdepth : 0 < prog.txHistoryDepth) (w₀ : World)
    (h₀ : Reachable (step prog) free Seeded w₀) :
    w₀.transactions.card ≤ prog.txHistoryDepth ∧
    ∀ key ∈ w₀.transactions, ∀ w, Reachable (step prog) (HistoryOrderly prog) (· = w₀) w →
      ∀ sender receipt sendOk, ∃ e,
        step prog w (.submitReceipt sender key receipt sendOk) =
          some (w.bump.finish w.nextId (.failed e)) ∧
        (receiptSupported w sender receipt = true →
          e = .alreadyProcessed ∨ e = .transactionTooOld) := by
  refine ⟨card_transactions_le hdepth h₀, ?_⟩
  intro key hkey w hw sender receipt sendOk
  have hrefuses := refuses_of_reachable hdepth (.inl hkey) hw
  obtain ⟨e, hcheck, he⟩ := checkReceipt_of_refuses hrefuses
  exact ⟨e, by simp only [step, submitReceipt, hcheck], he⟩

/-- A program that remembers one transaction. -/
def forgetful : Program := ⟨3, 1⟩

/-- The receipt of `sampleSubmission` under another key. -/
def submission (key : TxKey) : Action :=
  .submitReceipt 9 key (some ⟨true, [⟨7, some ⟨200, 77, 10⟩⟩]⟩) true

/-- The key of a transaction. -/
def creditedKey : TxKey := (10, 0)

/-- Transaction `creditedKey` is credited by message `2`. -/
def creditedRun : List Action :=
  [.admin 1 (.mapVaraToEthAddress 100 200 .ethereum), submission creditedKey, .execute 2 .unit,
    .processReply 2]

/-- With a newer transaction processed meanwhile, an older one is still refused. -/
theorem processed_refused_newer : ∃ w₀ w, Reachable (step forgetful) free Seeded w₀ ∧
    Reachable (step forgetful) (HistoryOrderly forgetful) (· = w₀) w ∧
    creditedKey ∈ w₀.transactions ∧ creditedKey ∉ w.transactions ∧
    ∃ e, step forgetful w (submission creditedKey) = some (w.bump.finish w.nextId (.failed e)) ∧
      (e = .alreadyProcessed ∨ e = .transactionTooOld) := by
  obtain ⟨w₀, hw₀, hr₀⟩ := exists_reachable_of_exec (step forgetful) free sampleSeed_seeded
    creditedRun
    (fun w => decide (creditedKey ∈ w.transactions) &&
      (exec (step forgetful) (HistoryOrderly forgetful) w
        [submission (20, 0), .execute 4 .unit, .processReply 4]).any fun w' : World =>
          decide (creditedKey ∉ w'.transactions) &&
            receiptSupported w' 9 (some ⟨true, [⟨7, some ⟨200, 77, 10⟩⟩]⟩))
    (by decide +kernel)
  simp only [Bool.and_eq_true, decide_eq_true_eq, Option.any_eq_true] at hr₀
  obtain ⟨hkey, w, hexec, hgone, hsupported⟩ := hr₀
  have hw : Reachable (step forgetful) (HistoryOrderly forgetful) (· = w₀) w :=
    .of_exec (.start rfl) hexec
  obtain ⟨e, hstep, he⟩ := (processed_refused forgetful (by decide) w₀ hw₀).2 creditedKey hkey w hw 9
    (some ⟨true, [⟨7, some ⟨200, 77, 10⟩⟩]⟩) true
  exact ⟨w₀, w, hw₀, hw, hkey, hgone, e, hstep, he hsupported⟩

/-- A reply that comes late makes the program accept a transaction again: with room for
one key, transaction `(5, 0)` is submitted before `creditedKey` and answered after it. -/
theorem evicted_accepted : ∃ w₀ w, Reachable (step forgetful) free Seeded w₀ ∧
    creditedKey ∈ w₀.transactions ∧ Reachable (step forgetful) free (· = w₀) w ∧
    ∃ found, checkReceipt forgetful w 9 creditedKey (some ⟨true, [⟨7, some ⟨200, 77, 10⟩⟩]⟩) =
      .ok found := by
  obtain ⟨w₀, hw₀, hr₀⟩ := exists_reachable_of_exec (step forgetful) free sampleSeed_seeded
    [.admin 1 (.mapVaraToEthAddress 100 200 .ethereum), submission (5, 0), submission creditedKey,
      .execute 4 .unit, .processReply 4]
    (fun w => decide (creditedKey ∈ w.transactions) &&
      (exec (step forgetful) free w [.execute 2 .unit, .processReply 2]).any fun w' : World =>
        (checkReceipt forgetful w' 9 creditedKey
          (some ⟨true, [⟨7, some ⟨200, 77, 10⟩⟩]⟩)).isOk)
    (by decide +kernel)
  simp only [Bool.and_eq_true, decide_eq_true_eq, Option.any_eq_true] at hr₀
  obtain ⟨hkey, w, hexec, hok⟩ := hr₀
  refine ⟨w₀, w, hw₀, hkey, .of_exec (.start rfl) hexec, ?_⟩
  cases hcheck : checkReceipt forgetful w 9 creditedKey (some ⟨true, [⟨7, some ⟨200, 77, 10⟩⟩]⟩) with
  | ok found => exact ⟨found, rfl⟩
  | error e =>
      rw [hcheck] at hok
      contradiction

end GearBridges.VftManager
