import GearBridges.VftManager.TxHistory
import Mathlib.Data.List.Basic

/-!
# VftManager.Deposits

The deposits of one receipt.

A transaction of Ethereum may emit any number of `BridgingRequested` events, and for each of
them `ERC20Manager` has taken tokens.  `submit_receipt` stops at the first log it supports,
and the key it is recorded under is that of the whole transaction.  So the deposits of a
receipt can be credited exactly when there is one of them (`creditable_iff`); with more, all
but the first are lost (`second_deposit_lost`).
-/

namespace GearBridges.VftManager

open Transition BoundedHistory

variable {prog : Program} {w w' w₀ : World} {a : Action} {key : TxKey} {receipt : Receipt}

/-! ## deposits and credits -/

/-- The deposits of a receipt: the events of the configured `ERC20Manager` for mapped tokens,
in the order of the logs, each with the `VFT` of its token. -/
def deposits (s : State) (logs : List Log) : List (ActorId × BridgingRequested) :=
  logs.filterMap fun log => match log.event with
    | none => none
    | some event => match s.tokenMap.getVaraTokenId event.token with
      | .error _ => none
      | .ok varaTokenId =>
          if s.erc20ManagerAddress = log.address then some (varaTokenId, event) else none

/-- What a deposit is owed: a call of `mint` or `unlock`, and the `VFT` it goes to. -/
def creditOf (prog : Program) (s : State) (deposit : ActorId × BridgingRequested) :
    Option (ActorId × Call) :=
  match s.tokenMap.getSupplyType deposit.1 with
  | .error _ => none
  | .ok supply => some (deposit.1, receiptCall prog deposit.2 supply)

/-- What the deposits of a receipt are owed. -/
def owed (prog : Program) (s : State) (receipt : Receipt) : List (ActorId × Call) :=
  (deposits s receipt.logs).filterMap (creditOf prog s)

/-- The credit that a message for the transaction has brought, once it has been executed
successfully. -/
def World.credit? (w : World) (key : TxKey) (id : MessageId) : Option (ActorId × Call) :=
  match w.messages id with
  | some m => if m.origin = .receipt key ∧ m.delivery.succeeded then some (m.destination, m.call)
      else none
  | none => none

/-- The credits of a transaction so far. -/
def World.credits (w : World) (key : TxKey) : List (ActorId × Call) :=
  (List.range w.nextId).filterMap (w.credit? key)

theorem World.credit?_eq_some {id : MessageId} {c : ActorId × Call} :
    w.credit? key id = some c ↔ ∃ m, w.messages id = some m ∧ m.origin = .receipt key ∧
      m.delivery.succeeded = true ∧ (m.destination, m.call) = c := by
  unfold credit?
  cases hm : w.messages id with
  | none => simp
  | some m => simp [and_assoc]

/-- `submit_receipt` looks at the first deposit only. -/
theorem findBridgingRequested_eq (s : State) (logs : List Log) :
    findBridgingRequested s logs = (deposits s logs).head? := by
  rw [deposits, List.head?_filterMap]
  rfl

/-! ## runs of one receipt -/

/-- Runs under an unchanged configuration in which what is submitted for the transaction is
its receipt. -/
def SameReceipt (key : TxKey) (receipt : Receipt) (_ : World) (a : Action) : Prop :=
  a.ungoverned = true ∧
    ∀ sender submitted sendOk, a = .submitReceipt sender key submitted sendOk →
      submitted = some receipt

/-- Repeated submissions of a receipt, one after the other, with a history that keeps its
order. -/
structure Resubmits (prog : Program) (key : TxKey) (receipt : Receipt) (w : World) (a : Action) :
    Prop where
  same : SameReceipt key receipt w a
  apart : SubmissionsApart prog w a
  orderly : HistoryOrderly prog w a

/-- The service runs, and the transaction has not been credited: no credit is on its way, none
has been executed successfully, and the history does not know the key. -/
structure Uncredited (prog : Program) (key : TxKey) (w : World) : Prop where
  unpaused : w.state.isPaused = false
  timeout : 0 < w.config.replyTimeout
  deposit : 0 < w.config.gasForReplyDeposit
  unknown : ¬ Refuses prog.txHistoryDepth w.transactions key
  idle : ∀ {id m}, w.messages id = some m → m.origin = .receipt key →
    m.delivery ≠ .sent ∧ m.delivery.succeeded = false

/-- Repeated submissions can credit what the deposits of the receipt are owed, each exactly
once. -/
def Creditable (prog : Program) (key : TxKey) (receipt : Receipt) (w₀ : World) : Prop :=
  ∃ w, Reachable (step prog) (Resubmits prog key receipt) (· = w₀) w ∧
    (w.credits key).Perm (owed prog w₀.state receipt)

/-! ## only the first deposit is credited -/

theorem refuses_iff {depth : Nat} {transactions : Finset TxKey} :
    Refuses depth transactions key ↔
      key ∈ transactions ∨ (depth ≤ transactions.card && belowFirst transactions key) = true := by
  unfold Refuses belowFirst
  by_cases hs : transactions.Nonempty <;> simp [hs]

/-- **What a submission is checked for.** -/
theorem checkReceipt_eq_ok {sender token : ActorId} {event : BridgingRequested}
    {supply : TokenSupply} :
    checkReceipt prog w sender key (some receipt) = .ok (token, event, supply) ↔
      w.state.isPaused = false ∧ sender = w.state.historicalProxyAddress ∧
      receipt.isSuccess = true ∧ (deposits w.state receipt.logs).head? = some (token, event) ∧
      ¬ Refuses prog.txHistoryDepth w.transactions key ∧
      w.state.tokenMap.getSupplyType token = .ok supply := by
  unfold checkReceipt
  rw [refuses_iff, ← findBridgingRequested_eq]
  constructor
  · intro h
    simp only at h
    repeat' split at h
    all_goals cases h
    simp_all
  · rintro ⟨hpaused, hsender, hsuccess, hfind, hknown, hsupply⟩
    rw [not_or] at hknown
    simp only [hpaused, hsender, hsuccess, hfind, hknown, hsupply]
    simp

/-- A submission that passes the checks sends what the first deposit is owed. -/
theorem creditOf_of_checkReceipt {sender token : ActorId} {event : BridgingRequested}
    {supply : TokenSupply}
    (h : checkReceipt prog w sender key (some receipt) = .ok (token, event, supply)) :
    (deposits w.state receipt.logs).head?.bind (creditOf prog w.state) =
      some (token, receiptCall prog event supply) := by
  obtain ⟨-, -, -, hfirst, -, hsupply⟩ := checkReceipt_eq_ok.mp h
  rw [hfirst, Option.bind_some, creditOf, hsupply]

/-- The live messages for the transaction carry what the first deposit is owed. -/
structure FirstOnly (prog : Program) (key : TxKey) (receipt : Receipt) (s : State) (w : World) :
    Prop where
  state : w.state = s
  message : ∀ {id m}, w.messages id = some m → m.origin = .receipt key → m.delivery.Live →
    (deposits s receipt.logs).head?.bind (creditOf prog s) = some (m.destination, m.call)

theorem FirstOnly.step {s : State} (hi : FirstOnly prog key receipt s w)
    (hok : SameReceipt key receipt w a) (hstep : step prog w a = some w') :
    FirstOnly prog key receipt s w' where
  state := (step_state hstep hok.1).trans hi.state
  message := by
    intro id m hm ho hlive
    rcases (step_effect hstep).receipt_cases hm ho with
      ⟨m₀, hm₀, ho₀, hdest, hcall, -, hback⟩ |
      ⟨sender, submitted, sendOk, token, event, supply, hooked, ha, -, hcheck, rfl, -⟩
    · rw [← hdest, ← hcall]
      exact hi.message hm₀ ho₀ (hback hlive)
    · rw [hok.2 sender submitted sendOk ha] at hcheck
      rw [← hi.state]
      exact creditOf_of_checkReceipt hcheck

theorem firstOnly_of_reachable (hopen : Uncredited prog key w₀)
    (h : Reachable (VftManager.step prog) (SameReceipt key receipt) (· = w₀) w) :
    FirstOnly prog key receipt w₀.state w := by
  refine Reachable.invariant (I := FirstOnly prog key receipt w₀.state) ?_ ?_ h
  · rintro s rfl
    exact ⟨rfl, fun hm ho hlive => by grind [hopen.idle hm ho]⟩
  · intro s a s' hi hok hstep
    exact hi.step hok hstep

/-- What has been credited is owed to the first deposit. -/
theorem FirstOnly.credits {s : State} (hi : FirstOnly prog key receipt s w) {c : ActorId × Call}
    (hc : c ∈ w.credits key) : (deposits s receipt.logs).head?.bind (creditOf prog s) = some c := by
  obtain ⟨id, -, hid⟩ := List.mem_filterMap.mp hc
  obtain ⟨m, hm, ho, hs, rfl⟩ := World.credit?_eq_some.mp hid
  exact hi.message hm ho (.inr hs)

/-! ## at most one credit -/

/-- The live messages of the transaction are one and the same, it has a reply hook, and the
history knows the key once its reply has been processed. -/
structure Once (prog : Program) (key : TxKey) (w : World) : Prop where
  hooked : ∀ {id m}, w.messages id = some m → m.origin = .receipt key → m.delivery.Live →
    m.hooked = true ∧ m.call.credits = true
  trapped : ∀ {id m r}, w.messages id = some m → m.origin = .receipt key →
    m.delivery = .trapped r → r.isSuccess = false
  recorded : ∀ {id m r}, w.messages id = some m → m.origin = .receipt key →
    m.delivery = .processed r → r.isSuccess = true → Refuses prog.txHistoryDepth w.transactions key
  unique : ∀ {id id' m m'}, w.messages id = some m → w.messages id' = some m' →
    m.origin = .receipt key → m'.origin = .receipt key → m.delivery.Live → m'.delivery.Live →
    id = id'

theorem Once.of_uncredited (h : Uncredited prog key w) : Once prog key w := by
  have hidle := @h.idle
  constructor <;> grind

/-- A submission that passes the checks comes when no message of the transaction is live. -/
theorem Once.submit_failed (hf : Fresh w) (hi : Once prog key w) {sender token : ActorId}
    {submitted : Option Receipt} {sendOk : Bool} {event : BridgingRequested} {supply : TokenSupply}
    (hok : SubmissionsApart prog w (.submitReceipt sender key submitted sendOk))
    (hcheck : checkReceipt prog w sender key submitted = .ok (token, event, supply))
    {id : MessageId} {m : Message} (hm : w.messages id = some m) (ho : m.origin = .receipt key) :
    ¬ m.delivery.Live := by
  refine not_live_of_apart hf hok hcheck hm ho (fun r hr => hi.trapped hm ho hr) ?_
  intro r hr
  by_contra hs
  obtain ⟨e, he, -⟩ := @checkReceipt_of_refuses prog w sender key submitted
    (hi.recorded hm ho hr (by simpa using hs))
  rw [hcheck] at he
  contradiction

theorem Once.hooked_step (hi : Once prog key w) (hok : SubmissionsApart prog w a)
    (h : Effect prog w a w') {id : MessageId} {m : Message} (hm : w'.messages id = some m)
    (ho : m.origin = .receipt key) (hlive : m.delivery.Live) :
    m.hooked = true ∧ m.call.credits = true := by
  rcases h.receipt_hooked hok hm ho with ⟨m₀, hm₀, ho₀, hhooked, hcall, hback⟩ | hnew
  · rw [← hhooked, ← hcall]
    exact hi.hooked hm₀ ho₀ (hback hlive)
  · exact hnew

theorem Once.trapped_step (hp : Phases prog w) (hi : Once prog key w) (h : Effect prog w a w')
    {id : MessageId} {m : Message} {r : Reply} (hm : w'.messages id = some m)
    (ho : m.origin = .receipt key) (ht : m.delivery = .trapped r) : r.isSuccess = false := by
  by_contra hs
  rw [Bool.not_eq_false] at hs
  have hold := h.trapped_success hp hm ho ht hs fun hm₀ ho₀ hlive => (hi.hooked hm₀ ho₀ hlive).2
  rw [hi.trapped hold ho ht] at hs
  contradiction

theorem Once.recorded_step (hdepth : 0 < prog.txHistoryDepth) (hi : Once prog key w)
    (hok : HistoryOrderly prog w a) (h : Effect prog w a w') {id : MessageId} {m : Message}
    {r : Reply} (hm : w'.messages id = some m) (ho : m.origin = .receipt key)
    (hr : m.delivery = .processed r) (hs : r.isSuccess = true) :
    Refuses prog.txHistoryDepth w'.transactions key := by
  have hrecorded := @hi.recorded
  have hhooked := @hi.hooked
  have hkeep := @Effect.refuses _ _ _ _ hdepth h hok key
  cases h with
  | quiet => grind
  | receiptAnswered hm₁ hr₁ ho₁ _ hhook =>
      obtain ⟨-, rfl⟩ := handleReply_some hhook
      rcases posted_cases hm with hold | ⟨rfl, rfl⟩
      · exact hkeep (hrecorded hold ho hr hs)
      · cases ho₁.symm.trans ho
        exact refuses_record_self
  | _ => simp at hm hkeep ⊢; grind

theorem Once.unique_step (hf : Fresh w) (hi : Once prog key w) (hok : SubmissionsApart prog w a)
    (h : Effect prog w a w') {id id' : MessageId} {m m' : Message}
    (hm : w'.messages id = some m) (hm' : w'.messages id' = some m')
    (ho : m.origin = .receipt key) (ho' : m'.origin = .receipt key) (hlive : m.delivery.Live)
    (hlive' : m'.delivery.Live) : id = id' := by
  refine h.live_unique hi.unique ?_ hm hm' ho ho' hlive hlive'
  rintro sender submitted sendOk token event supply rfl hcheck id m hm hk
  exact hi.submit_failed hf hok hcheck hm hk

theorem once_of_reachable (hdepth : 0 < prog.txHistoryDepth) (hf : Fresh w₀) (hp : Phases prog w₀)
    (hopen : Uncredited prog key w₀)
    (h : Reachable (step prog) (Resubmits prog key receipt) (· = w₀) w) : Once prog key w := by
  suffices hinv : Fresh w ∧ Phases prog w ∧ Once prog key w from hinv.2.2
  refine Reachable.invariant (I := fun w => Fresh w ∧ Phases prog w ∧ Once prog key w) ?_ ?_ h
  · rintro s rfl
    exact ⟨hf, hp, .of_uncredited hopen⟩
  · rintro s a s' ⟨hf, hp, hi⟩ hok hstep
    have heffect := step_effect hstep
    exact ⟨hf.step heffect, Phases.step hf hp heffect,
      { hooked := hi.hooked_step hok.apart heffect
        trapped := Once.trapped_step hp hi heffect
        recorded := Once.recorded_step hdepth hi hok.orderly heffect
        unique := Once.unique_step hf hi hok.apart heffect }⟩

/-- The transaction is credited at most once. -/
theorem Once.length_credits (hi : Once prog key w) : (w.credits key).length ≤ 1 := by
  unfold World.credits
  rw [List.length_filterMap_eq_countP]
  by_cases hsome : ∃ id c, w.credit? key id = some c
  · obtain ⟨id, c, hid⟩ := hsome
    obtain ⟨m, hm, ho, hs, -⟩ := World.credit?_eq_some.mp hid
    refine le_trans (List.countP_mono_left (q := (· == id)) ?_)
      (List.nodup_iff_count_le_one.mp List.nodup_range id)
    intro id' _ hid'
    obtain ⟨c', hc'⟩ := Option.isSome_iff_exists.mp hid'
    obtain ⟨m', hm', ho', hs', -⟩ := World.credit?_eq_some.mp hc'
    exact beq_iff_eq.mpr (hi.unique hm' hm ho' ho (.inr hs') (.inr hs))
  · refine le_of_eq_of_le (List.countP_eq_zero.mpr ?_) (Nat.zero_le 1)
    intro id _ hid
    obtain ⟨c, hc⟩ := Option.isSome_iff_exists.mp hid
    exact hsome ⟨id, c, hc⟩

/-! ## a single deposit is credited -/

/-- What a submission that passes the checks leaves behind. -/
theorem submitReceipt_eq {sender token : ActorId} {submitted : Option Receipt}
    {event : BridgingRequested} {supply : TokenSupply} (ht : 0 < w.config.replyTimeout)
    (hg : 0 < w.config.gasForReplyDeposit)
    (hcheck : checkReceipt prog w sender key submitted = .ok (token, event, supply)) :
    submitReceipt prog w sender key submitted true =
      (w.bump.post (receiptMessage prog key token event supply true)).suspend w.nextId
        ⟨.receipt, w.nextId + 1, false⟩ := by
  simp only [submitReceipt, hcheck, World.sendForReply]
  simp [Nat.pos_iff_ne_zero.mp ht, Nat.pos_iff_ne_zero.mp hg, receiptMessage]

/-- The reply of a call that has succeeded. -/
def successReply : TokenSupply → Reply
  | .ethereum => .unit
  | .gear => .bool true

theorem receiptCall_admits (event : BridgingRequested) (supply : TokenSupply) :
    (receiptCall prog event supply).admits (successReply supply) = true := by
  cases supply <;> rfl

theorem isSuccess_successReply (supply : TokenSupply) : (successReply supply).isSuccess = true := by
  cases supply <;> rfl

theorem Uncredited.not_pending (h : Uncredited prog key w) : w.creditPending key = false := by
  have hidle := @h.idle
  unfold World.creditPending
  rw [List.any_eq_false]
  intro id _ hid
  simp only [Option.any_eq_true] at hid
  obtain ⟨m, hm, hcrediting⟩ := hid
  rw [Bool.and_eq_true, decide_eq_true_iff] at hcrediting
  cases hd : m.delivery <;> grind

/-- The receipt is submitted and the `VFT` executes the message: the first deposit is credited. -/
theorem exists_credit (hopen : Uncredited prog key w₀) (hsuccess : receipt.isSuccess = true)
    {token : ActorId} {event : BridgingRequested} {supply : TokenSupply}
    (hfirst : (deposits w₀.state receipt.logs).head? = some (token, event))
    (hsupply : w₀.state.tokenMap.getSupplyType token = .ok supply) :
    ∃ w, Reachable (step prog) (Resubmits prog key receipt) (· = w₀) w ∧
      (token, receiptCall prog event supply) ∈ w.credits key := by
  have hcheck : checkReceipt prog w₀ w₀.state.historicalProxyAddress key (some receipt) =
      .ok (token, event, supply) :=
    checkReceipt_eq_ok.mpr ⟨hopen.unpaused, rfl, hsuccess, hfirst, hopen.unknown, hsupply⟩
  let m := receiptMessage prog key token event supply true
  let w₁ := (w₀.bump.post m).suspend w₀.nextId ⟨.receipt, w₀.nextId + 1, false⟩
  have hsubmit : step prog w₀
      (.submitReceipt w₀.state.historicalProxyAddress key (some receipt) true) = some w₁ := by
    rw [step, submitReceipt_eq hopen.timeout hopen.deposit hcheck]
  have hm : w₁.messages (w₀.nextId + 1) = some m := Function.update_self _ _ _
  have hexecute : step prog w₁ (.execute (w₀.nextId + 1) (successReply supply)) =
      some (w₁.deliver (w₀.nextId + 1) m (.executed (successReply supply))) := by
    show execute w₁ (w₀.nextId + 1) (successReply supply) = _
    simp only [execute, hm]
    exact if_pos ⟨rfl, receiptCall_admits event supply⟩
  refine ⟨_, .next (.next (.start rfl) ?_ hsubmit) ?_ hexecute, ?_⟩
  · refine ⟨⟨rfl, fun _ _ _ ha => ?_⟩, ?_, rfl⟩
    · injection ha with _ _ hreceipt
      exact hreceipt.symm
    · simp [SubmissionsApart, submissionsApart, hcheck, hopen.timeout, hopen.deposit,
        hopen.not_pending]
  · exact ⟨⟨rfl, fun _ _ _ ha => by contradiction⟩, rfl, rfl⟩
  · refine List.mem_filterMap.mpr ⟨w₀.nextId + 1, List.mem_range.mpr (Nat.lt_succ_self _), ?_⟩
    rw [World.credit?_eq_some]
    exact ⟨{ m with delivery := .executed (successReply supply) }, Function.update_self _ _ _, rfl,
      isSuccess_successReply supply, rfl⟩

/-! ## the deposits of a receipt -/

section Mapped

variable {s : State}

/-- Every deposit of the receipt has a supply type. -/
def Mapped (s : State) (receipt : Receipt) : Prop :=
  ∀ d ∈ deposits s receipt.logs, ∃ supply, s.tokenMap.getSupplyType d.1 = .ok supply

theorem Mapped.creditOf_isSome (prog : Program) (h : Mapped s receipt) {d : ActorId × BridgingRequested}
    (hd : d ∈ deposits s receipt.logs) : (creditOf prog s d).isSome = true := by
  obtain ⟨supply, hsupply⟩ := h d hd
  rw [creditOf, hsupply]
  rfl

theorem Mapped.length_owed (h : Mapped s receipt) :
    (owed prog s receipt).length = (deposits s receipt.logs).length := by
  rw [owed, List.length_filterMap_eq_countP]
  exact List.countP_eq_length.mpr fun d hd => h.creditOf_isSome prog hd

theorem Mapped.head?_owed (h : Mapped s receipt) :
    (owed prog s receipt).head? = (deposits s receipt.logs).head?.bind (creditOf prog s) := by
  unfold owed
  cases hd : deposits s receipt.logs with
  | nil => rfl
  | cons d rest =>
      obtain ⟨c, hc⟩ := Option.isSome_iff_exists.mp
        (h.creditOf_isSome prog (hd ▸ List.mem_cons_self))
      simp [hc]

end Mapped

/-- **A receipt can be credited in full exactly when it holds one deposit.**  Let the
transaction be uncredited in a reachable world, and let the receipt hold at least one deposit,
all of mapped tokens.  Submissions that come one after the other can credit all of them, each
once, if and only if there is one; and whatever the order of submissions, executions and
replies, only the first deposit is ever credited. -/
theorem creditable_iff (prog : Program) (hdepth : 0 < prog.txHistoryDepth) (w₀ : World)
    (h₀ : Reachable (step prog) free Seeded w₀) (key : TxKey) (receipt : Receipt)
    (hopen : Uncredited prog key w₀) (hsuccess : receipt.isSuccess = true)
    (hdeposits : deposits w₀.state receipt.logs ≠ []) (hmapped : Mapped w₀.state receipt) :
    (Creditable prog key receipt w₀ ↔ (deposits w₀.state receipt.logs).length = 1) ∧
    ∀ w, Reachable (step prog) (SameReceipt key receipt) (· = w₀) w →
      ∀ c ∈ w.credits key, (owed prog w₀.state receipt).head? = some c := by
  obtain ⟨hf, hp⟩ := phases_of_reachable h₀
  refine ⟨⟨?_, ?_⟩, ?_⟩
  · rintro ⟨w, hw, hperm⟩
    have hle := (once_of_reachable hdepth hf hp hopen hw).length_credits
    rw [hperm.length_eq, hmapped.length_owed] at hle
    have hpos := List.length_pos_iff.mpr hdeposits
    omega
  · intro hone
    obtain ⟨⟨token, event⟩, hd⟩ := List.length_eq_one_iff.mp hone
    have hfirst : (deposits w₀.state receipt.logs).head? = some (token, event) := by rw [hd]; rfl
    obtain ⟨supply, hsupply⟩ := hmapped (token, event) (hd ▸ List.mem_singleton_self _)
    obtain ⟨w, hw, hmem⟩ := exists_credit hopen hsuccess hfirst hsupply
    refine ⟨w, hw, ?_⟩
    have hle := (once_of_reachable hdepth hf hp hopen hw).length_credits
    have hcredits : w.credits key = [(token, receiptCall prog event supply)] := by
      obtain ⟨c, hc⟩ := List.length_eq_one_iff.mp (le_antisymm hle (List.length_pos_of_mem hmem))
      rw [hc] at hmem ⊢
      rw [List.mem_singleton.mp hmem]
    have howed : owed prog w₀.state receipt = [(token, receiptCall prog event supply)] := by
      simp [owed, hd, creditOf, hsupply]
    rw [hcredits, howed]
  · intro w hw c hc
    rw [hmapped.head?_owed]
    exact (firstOnly_of_reachable hopen hw).credits hc

/-- The world of `sampleSeed` with one token mapped. -/
def sampleMapped : World :=
  { sampleSeed.bump with
    state := { sampleSeed.state with
      tokenMap :=
        { varaToEth := Function.update (fun _ => none) 100 (some (200, .ethereum))
          ethToVara := Function.update (fun _ => none) 200 (some 100) } } }

theorem sampleMapped_reachable : Reachable (step (.deployed 3)) free Seeded sampleMapped :=
  .next (a := .admin 1 (.mapVaraToEthAddress 100 200 .ethereum)) (.start sampleSeed_seeded) trivial rfl

theorem sampleMapped_uncredited : Uncredited (.deployed 3) (5, 0) sampleMapped where
  unpaused := rfl
  timeout := Nat.zero_lt_one
  deposit := Nat.zero_lt_one
  unknown := by
    rintro (hmem | ⟨-, hs, -⟩)
    · exact absurd hmem (Finset.notMem_empty _)
    · exact absurd hs Finset.not_nonempty_empty
  idle := by
    intro id m hm
    contradiction

/-- The deposits of the receipts below are of the token that is mapped. -/
theorem sampleMapped_mapped (receipt : Receipt)
    (h : ∀ d ∈ deposits sampleMapped.state receipt.logs, d.1 = 100) :
    Mapped sampleMapped.state receipt := by
  intro d hd
  rw [h d hd]
  exact ⟨.ethereum, rfl⟩

/-- A deposit among logs of other contracts is credited. -/
theorem creditable_iff_single : Creditable (.deployed 3) (5, 0)
    ⟨true, [⟨6, none⟩, ⟨7, some ⟨200, 77, 10⟩⟩, ⟨6, some ⟨200, 77, 10⟩⟩]⟩ sampleMapped :=
  (creditable_iff (.deployed 3) (by decide) sampleMapped sampleMapped_reachable (5, 0)
    ⟨true, [⟨6, none⟩, ⟨7, some ⟨200, 77, 10⟩⟩, ⟨6, some ⟨200, 77, 10⟩⟩]⟩ sampleMapped_uncredited rfl
    (by decide +kernel) (sampleMapped_mapped _ (by decide +kernel))).1.mpr (by decide +kernel)

/-- Of two deposits to accounts `77` and `78` in one transaction, one cannot be credited. -/
theorem second_deposit_lost : ¬ ∀ (prog : Program) (w₀ : World) (key : TxKey) (receipt : Receipt),
    0 < prog.txHistoryDepth → Reachable (step prog) free Seeded w₀ → Uncredited prog key w₀ →
    receipt.isSuccess = true → deposits w₀.state receipt.logs ≠ [] → Mapped w₀.state receipt →
    Creditable prog key receipt w₀ := by
  intro hclaim
  let receipt : Receipt := ⟨true, [⟨7, some ⟨200, 77, 10⟩⟩, ⟨7, some ⟨200, 78, 20⟩⟩]⟩
  obtain ⟨w, hw, hperm⟩ := hclaim (.deployed 3) sampleMapped (5, 0) receipt (by decide)
    sampleMapped_reachable sampleMapped_uncredited rfl (by decide +kernel)
    (sampleMapped_mapped _ (by decide +kernel))
  obtain ⟨hf, hp⟩ := phases_of_reachable sampleMapped_reachable
  have hle := (once_of_reachable (by decide) hf hp sampleMapped_uncredited hw).length_credits
  have hlength : (owed (.deployed 3) sampleMapped.state receipt).length = 2 := by decide +kernel
  rw [hperm.length_eq, hlength] at hle
  contradiction

end GearBridges.VftManager
