import GearBridges.Ethereum.ERC20Manager

/-!
# Ethereum.Accounting

The books of `ERC20Manager`, whatever the foreign tokens do while the manager calls them:

* `Kept` — a supply type is set once;
* `Booked` — the balance of the manager of an `ERC20` is what was bridged and sent to it,
  less what it paid out;
* `Typed` — the supply type of an `ERC20` is the direction of the first bridging of it.

Each of them speaks of one token, and the calls the manager makes to other tokens leave
that token alone, so it holds whenever foreign code gets to run.
-/

namespace GearBridges.ERC20Manager

open Reentrancy

variable {ρ : Type} {d : Deployment ρ}
  {callback : Code (State ρ) (Call ρ) → State ρ → Option (Bool × State ρ)}

/-! ## what a call does -/

/-- A call to another contract: the books of an `ERC20`, or foreign code. -/
theorem external_cases {sender callee : Address} {c : TokenCall} {s s' : State ρ} {value : Bool}
    (h : external d callback sender callee c s = some (value, s')) :
    (∃ accepts ledger, d.contracts callee = .erc20 accepts ∧
      (s.ledgers callee).apply sender c = some ledger ∧ s' = s.setLedger callee ledger) ∨
    ∃ code, d.contracts callee = .foreign code ∧ callback (code sender c) s = some (value, s') := by
  unfold external at h
  split at h
  · contradiction
  · split at h
    · next accepts hcontract =>
      split at h
      · rw [Option.map_eq_some_iff] at h
        obtain ⟨ledger, hledger, heq⟩ := h
        exact .inl ⟨accepts, ledger, hcontract, hledger, (Prod.mk.inj heq).2.symm⟩
      · contradiction
    · next code hcontract => exact .inr ⟨code, hcontract, h⟩

theorem setSupplyType_self {s : State ρ} {token : Address} {t : SupplyType}
    (h : s.tokenSupplyType token = t) : s.setSupplyType token t = s := by
  rw [State.setSupplyType, ← h, Function.update_eq_self]

theorem requestBridging_ok {s s' : State ρ} {msgSender token : Address} {amount destination : Word}
    (h : requestBridging d callback s msgSender token amount destination = .ok s') :
    ∃ value s₁, s' = s₁.emit (.bridgingRequested msgSender destination token amount) ∧
      ((s.tokenSupplyType token = .gear ∧
        external d callback d.manager token (.burnFrom msgSender amount) s = some (value, s₁)) ∨
      (s.tokenSupplyType token ≠ .gear ∧
        external d callback d.manager token (.transferFrom msgSender d.manager amount)
          (s.setSupplyType token .ethereum) = some (value, s₁))) := by
  unfold requestBridging at h
  simp only at h
  split at h
  · next hgear =>
    split at h
    · contradiction
    · next value s₁ hcall => exact ⟨value, s₁, (Except.ok.inj h).symm, .inl ⟨hgear, hcall⟩⟩
  · next hgear =>
    have hset : (if s.tokenSupplyType token = .unknown then s.setSupplyType token .ethereum else s) =
        s.setSupplyType token .ethereum := by
      split
      · rfl
      · next hknown =>
        refine (setSupplyType_self ?_).symm
        cases ht : s.tokenSupplyType token <;> simp_all
    rw [hset] at h
    split at h
    · contradiction
    · contradiction
    · next s₁ hcall => exact ⟨true, s₁, (Except.ok.inj h).symm, .inr ⟨hgear, hcall⟩⟩

theorem processVaraMessage_ok {s s' : State ρ} {msgSender : Address} {sender : Word} {payload : Bytes}
    (h : processVaraMessage d callback s msgSender sender payload = .ok s') :
    ∃ receiver token amount value s₁, s' = s₁.emit (.bridgingAccepted receiver token amount) ∧
      ((s.tokenSupplyType token = .ethereum ∧
        external d callback d.manager token (.transfer receiver amount) s = some (value, s₁)) ∨
      (s.tokenSupplyType token ≠ .ethereum ∧
        external d callback d.manager token (.mint receiver amount)
          (s.setSupplyType token .gear) = some (value, s₁))) := by
  unfold processVaraMessage at h
  split at h
  · contradiction
  · split at h
    · contradiction
    · next receiver token amount _ =>
      simp only at h
      split at h
      · contradiction
      · split at h
        · next hethereum =>
          split at h
          · contradiction
          · contradiction
          · next s₁ hcall =>
            exact ⟨receiver, token, amount, true, s₁, (Except.ok.inj h).symm, .inl ⟨hethereum, hcall⟩⟩
        · next hethereum =>
          have hset : (if s.tokenSupplyType token = .unknown then s.setSupplyType token .gear else s) =
              s.setSupplyType token .gear := by
            split
            · rfl
            · next hknown =>
              refine (setSupplyType_self ?_).symm
              cases ht : s.tokenSupplyType token <;> simp_all
          rw [hset] at h
          split at h
          · contradiction
          · next value s₁ hcall =>
            exact ⟨receiver, token, amount, value, s₁, (Except.ok.inj h).symm,
              .inr ⟨hethereum, hcall⟩⟩

/-! ## properties of one token -/

/-- Two states that are the same as far as a token is concerned. -/
structure SameToken (token : Address) (s s' : State ρ) : Prop where
  supplyType : s'.tokenSupplyType token = s.tokenSupplyType token
  events : s'.events.filter (fun event => event.token = token) =
    s.events.filter (fun event => event.token = token)
  ledger : s'.ledgers token = s.ledgers token
  direct : s'.direct token = s.direct token

theorem SameToken.trans {token : Address} {s s' s'' : State ρ} (h : SameToken token s s')
    (h' : SameToken token s' s'') : SameToken token s s'' :=
  ⟨h'.supplyType.trans h.supplyType, h'.events.trans h.events, h'.ledger.trans h.ledger,
    h'.direct.trans h.direct⟩

section

variable {token other : Address} (hne : token ≠ other) (s : State ρ)
include hne

theorem sameToken_setSupplyType (t : SupplyType) : SameToken token s (s.setSupplyType other t) :=
  ⟨Function.update_of_ne hne .., rfl, rfl, rfl⟩

theorem sameToken_setLedger (ledger : Ledger) : SameToken token s (s.setLedger other ledger) :=
  ⟨rfl, rfl, Function.update_of_ne hne .., rfl⟩

theorem sameToken_emit {event : Event} (hevent : event.token = other) :
    SameToken token s (s.emit event) := by
  refine ⟨rfl, ?_, rfl, rfl⟩
  rw [State.emit, List.filter_cons_of_neg]
  rw [hevent]
  simpa using hne.symm

end

/-- A property of an `ERC20` that the calls about this token keep.  The manager makes its
calls to an `ERC20` without foreign code in between. -/
structure KeptByOwn (d : Deployment ρ) (token : Address) (I : State ρ → Prop) : Prop where
  same : ∀ {s s'}, SameToken token s s' → I s → I s'
  burned : ∀ {s sender amount destination ledger}, I s → sender ≠ d.manager →
    s.tokenSupplyType token = .gear →
    (s.ledgers token).apply d.manager (.burnFrom sender amount) = some ledger →
    I ((s.setLedger token ledger).emit (.bridgingRequested sender destination token amount))
  locked : ∀ {s sender amount destination ledger}, I s → sender ≠ d.manager →
    s.tokenSupplyType token ≠ .gear →
    (s.ledgers token).apply d.manager (.transferFrom sender d.manager amount) = some ledger →
    I (((s.setSupplyType token .ethereum).setLedger token ledger).emit
      (.bridgingRequested sender destination token amount))
  unlocked : ∀ {s receiver amount ledger}, I s → s.tokenSupplyType token = .ethereum →
    (s.ledgers token).apply d.manager (.transfer receiver amount) = some ledger →
    I ((s.setLedger token ledger).emit (.bridgingAccepted receiver token amount))
  minted : ∀ {s receiver amount ledger}, I s → s.tokenSupplyType token ≠ .ethereum →
    (s.ledgers token).apply d.manager (.mint receiver amount) = some ledger →
    I (((s.setSupplyType token .gear).setLedger token ledger).emit
      (.bridgingAccepted receiver token amount))
  used : ∀ {s sender c ledger}, I s → sender ≠ d.manager →
    (s.ledgers token).apply sender c = some ledger →
    I { s.setLedger token ledger with
      direct := Function.update s.direct token (s.direct token + incoming d.manager c) }

section

variable {token : Address} {I : State ρ → Prop} {accepts : State ρ → Address → TokenCall → Bool}
  (htoken : d.contracts token = .erc20 accepts) (h : KeptByOwn d token I)
  (hcallback : ∀ code s value s', callback code s = some (value, s') → I s → I s')
include htoken h hcallback

omit htoken in
/-- A call to another contract. -/
theorem KeptByOwn.external_other {sender callee : Address} {c : TokenCall} {s s' : State ρ}
    {value : Bool} (hne : token ≠ callee)
    (hcall : external d callback sender callee c s = some (value, s')) (hI : I s) : I s' := by
  rcases external_cases hcall with ⟨_, ledger, _, _, rfl⟩ | ⟨code, _, hcode⟩
  · exact h.same (sameToken_setLedger hne s ledger) hI
  · exact hcallback _ _ _ _ hcode hI

omit h hcallback in
/-- A call to the token itself. -/
theorem external_own {sender : Address} {c : TokenCall} {s s' : State ρ} {value : Bool}
    (hcall : external d callback sender token c s = some (value, s')) :
    ∃ ledger, (s.ledgers token).apply sender c = some ledger ∧ s' = s.setLedger token ledger := by
  rcases external_cases hcall with ⟨_, ledger, _, hledger, rfl⟩ | ⟨code, hcode, _⟩
  · exact ⟨ledger, hledger, rfl⟩
  · rw [htoken] at hcode
    cases hcode

theorem KeptByOwn.requestBridging {s s' : State ρ} {msgSender token' : Address}
    {amount destination : Word} (hsender : msgSender ≠ d.manager)
    (hok : ERC20Manager.requestBridging d callback s msgSender token' amount destination = .ok s')
    (hI : I s) : I s' := by
  obtain ⟨value, s₁, rfl, hcase⟩ := requestBridging_ok hok
  by_cases hne : token = token'
  · subst hne
    rcases hcase with ⟨hgear, hcall⟩ | ⟨hgear, hcall⟩
    · obtain ⟨ledger, hledger, rfl⟩ := external_own htoken hcall
      exact h.burned hI hsender hgear hledger
    · obtain ⟨ledger, hledger, rfl⟩ := external_own htoken hcall
      exact h.locked hI hsender hgear hledger
  · refine h.same (sameToken_emit hne s₁ rfl) ?_
    rcases hcase with ⟨_, hcall⟩ | ⟨_, hcall⟩
    · exact h.external_other hcallback hne hcall hI
    · exact h.external_other hcallback hne hcall
        (h.same (sameToken_setSupplyType hne s .ethereum) hI)

theorem KeptByOwn.processVaraMessage {s s' : State ρ} {msgSender : Address} {sender : Word}
    {payload : Bytes}
    (hok : ERC20Manager.processVaraMessage d callback s msgSender sender payload = .ok s')
    (hI : I s) : I s' := by
  obtain ⟨receiver, token', amount, value, s₁, rfl, hcase⟩ := processVaraMessage_ok hok
  by_cases hne : token = token'
  · subst hne
    rcases hcase with ⟨htype, hcall⟩ | ⟨htype, hcall⟩
    · obtain ⟨ledger, hledger, rfl⟩ := external_own htoken hcall
      exact h.unlocked hI htype hledger
    · obtain ⟨ledger, hledger, rfl⟩ := external_own htoken hcall
      exact h.minted hI htype hledger
  · refine h.same (sameToken_emit hne s₁ rfl) ?_
    rcases hcase with ⟨_, hcall⟩ | ⟨_, hcall⟩
    · exact h.external_other hcallback hne hcall hI
    · exact h.external_other hcallback hne hcall
        (h.same (sameToken_setSupplyType hne s .gear) hI)

/-- **A property of one token**: it is enough to look at the calls about the token. -/
theorem KeptByOwn.contracts (c : Call ρ) (s s' : State ρ)
    (hcall : ERC20Manager.contracts d callback c s = some s') (hI : I s) : I s' := by
  cases c with
  | requestBridging sender token' amount destination =>
      rw [ERC20Manager.contracts, Option.ite_none_left_eq_some] at hcall
      obtain ⟨hsender, hcall⟩ := hcall
      exact h.requestBridging htoken hcallback hsender (ok_of_toOption hcall) hI
  | requestBridgingPayingFee sender token' amount destination bridgingPayment =>
      rw [ERC20Manager.contracts, Option.ite_none_left_eq_some] at hcall
      obtain ⟨hsender, hcall⟩ := hcall
      have hok := ok_of_toOption hcall
      unfold requestBridgingPayingFee at hok
      split at hok
      · contradiction
      · next value s₁ hfee =>
        refine h.requestBridging htoken hcallback hsender hok ?_
        by_cases hne : token = bridgingPayment
        · subst hne
          obtain ⟨_, hledger, _⟩ := external_own htoken hfee
          contradiction
        · exact h.external_other hcallback hne hfee hI
  | processVaraMessage sender varaSender payload =>
      rw [ERC20Manager.contracts, Option.ite_none_left_eq_some] at hcall
      exact h.processVaraMessage htoken hcallback (ok_of_toOption hcall.2) hI
  | token sender token' c =>
      rw [ERC20Manager.contracts, Option.ite_none_left_eq_some, Option.map_eq_some_iff] at hcall
      obtain ⟨hsender, ⟨value, s₁⟩, hcall, rfl⟩ := hcall
      by_cases hne : token = token'
      · subst hne
        obtain ⟨ledger, hledger, rfl⟩ := external_own htoken hcall
        exact h.used hI hsender hledger
      · have hI₁ : I s₁ := h.external_other hcallback hne hcall hI
        exact h.same (s := s₁) ⟨rfl, rfl, rfl, Function.update_of_ne hne ..⟩ hI₁
  | update change =>
      rw [ERC20Manager.contracts, Option.some.injEq] at hcall
      subst hcall
      exact h.same (s := s) ⟨rfl, rfl, rfl, rfl⟩ hI

end

/-! ## supply types -/

/-- A supply type that is known stays. -/
def Kept (s s' : State ρ) : Prop :=
  ∀ token, s.tokenSupplyType token ≠ .unknown → s'.tokenSupplyType token = s.tokenSupplyType token

theorem Kept.refl (s : State ρ) : Kept s s := fun _ _ => rfl

theorem Kept.trans (s s' s'' : State ρ) (h : Kept s s') (h' : Kept s' s'') : Kept s s'' := by
  intro token hknown
  rw [h' token (by rwa [h token hknown]), h token hknown]

theorem kept_setSupplyType {s : State ρ} {token : Address} {t : SupplyType}
    (h : s.tokenSupplyType token = .unknown ∨ s.tokenSupplyType token = t) :
    Kept s (s.setSupplyType token t) := by
  intro token' hknown
  by_cases htoken : token' = token
  · subst htoken
    exact (Function.update_self ..).trans (h.resolve_left hknown).symm
  · exact Function.update_of_ne htoken ..

section

variable (hcallback : ∀ code s value s', callback code s = some (value, s') → Kept s s')
include hcallback

theorem external_kept {sender callee : Address} {c : TokenCall} {s s' : State ρ} {value : Bool}
    (h : external d callback sender callee c s = some (value, s')) : Kept s s' := by
  rcases external_cases h with ⟨_, _, _, _, rfl⟩ | ⟨_, _, hcode⟩
  · exact fun _ _ => rfl
  · exact hcallback _ _ _ _ hcode

theorem requestBridging_kept {s s' : State ρ} {msgSender token : Address}
    {amount destination : Word}
    (h : requestBridging d callback s msgSender token amount destination = .ok s') : Kept s s' := by
  obtain ⟨value, s₁, rfl, hcase⟩ := requestBridging_ok h
  show Kept s s₁
  rcases hcase with ⟨_, hcall⟩ | ⟨htype, hcall⟩
  · exact external_kept hcallback hcall
  · have hset : s.tokenSupplyType token = .unknown ∨ s.tokenSupplyType token = .ethereum := by
      cases ht : s.tokenSupplyType token <;> simp_all
    exact Kept.trans _ _ _ (kept_setSupplyType hset) (external_kept hcallback hcall)

theorem contracts_kept (c : Call ρ) (s s' : State ρ) (h : contracts d callback c s = some s') :
    Kept s s' := by
  cases c with
  | requestBridging sender token amount destination =>
      rw [contracts, Option.ite_none_left_eq_some] at h
      exact requestBridging_kept hcallback (ok_of_toOption h.2)
  | requestBridgingPayingFee sender token amount destination bridgingPayment =>
      rw [contracts, Option.ite_none_left_eq_some] at h
      have hok := ok_of_toOption h.2
      unfold requestBridgingPayingFee at hok
      split at hok
      · contradiction
      · next value s₁ hfee =>
        exact Kept.trans _ _ _ (external_kept hcallback hfee) (requestBridging_kept hcallback hok)
  | processVaraMessage sender varaSender payload =>
      rw [contracts, Option.ite_none_left_eq_some] at h
      obtain ⟨receiver, token, amount, value, s₁, rfl, hcase⟩ :=
        processVaraMessage_ok (ok_of_toOption h.2)
      show Kept s s₁
      rcases hcase with ⟨_, hcall⟩ | ⟨htype, hcall⟩
      · exact external_kept hcallback hcall
      · have hset : s.tokenSupplyType token = .unknown ∨ s.tokenSupplyType token = .gear := by
          cases ht : s.tokenSupplyType token <;> simp_all
        exact Kept.trans _ _ _ (kept_setSupplyType hset) (external_kept hcallback hcall)
  | token sender token c =>
      rw [contracts, Option.ite_none_left_eq_some, Option.map_eq_some_iff] at h
      obtain ⟨_, ⟨value, s₁⟩, hcall, rfl⟩ := h
      show Kept s s₁
      exact external_kept hcallback hcall
  | update change =>
      rw [contracts, Option.some.injEq] at h
      subst h
      exact fun _ _ => rfl

end

/-! ## the books of a ledger -/

namespace Ledger

theorem move_some {l l' : Ledger} {owner recipient : Address} {amount : Nat}
    (h : l.move owner recipient amount = some l') :
    l'.allowances = l.allowances ∧ ∀ account,
      l'.balances account + (if account = owner then amount else 0) =
        l.balances account + (if account = recipient then amount else 0) := by
  unfold move at h
  split at h
  · contradiction
  · next hle =>
    rw [Option.some.injEq] at h
    subst h
    refine ⟨rfl, ?_⟩
    intro account
    simp only [Function.update_apply]
    split_ifs with h₁ h₂ h₃ h₄ <;> subst_vars <;> first | omega | simp_all

theorem spendAllowance_some {l l' : Ledger} {owner spender : Address} {amount : Nat}
    (h : l.spendAllowance owner spender amount = some l') :
    l'.balances = l.balances ∧ (l.allowances owner spender = 0 → amount = 0) ∧
      ∀ account, (∀ other, l.allowances account other = 0) → ∀ other, l'.allowances account other = 0 := by
  unfold spendAllowance at h
  split at h
  · next hinfinite =>
    rw [Option.some.injEq] at h
    subst h
    refine ⟨rfl, fun hzero => ?_, fun _ hzero => hzero⟩
    rw [hzero] at hinfinite
    contradiction
  · split at h
    · contradiction
    · next hle =>
      rw [Option.some.injEq] at h
      subst h
      refine ⟨rfl, fun hzero => by omega, ?_⟩
      intro account hzero other
      by_cases howner : account = owner
      · subst howner
        simp only [Function.update_self]
        by_cases hother : other = spender
        · subst hother
          rw [Function.update_self, hzero, Nat.zero_sub]
        · rw [Function.update_of_ne hother, hzero]
      · simp only [Function.update_of_ne howner, hzero]

theorem take_some {l l' : Ledger} {account : Address} {amount : Nat}
    (h : l.take account amount = some l') :
    l'.allowances = l.allowances ∧ ∀ other,
      l'.balances other + (if other = account then amount else 0) = l.balances other := by
  unfold take at h
  split at h
  · contradiction
  · next hle =>
    rw [Option.some.injEq] at h
    subst h
    refine ⟨rfl, ?_⟩
    intro other
    by_cases hother : other = account
    · subst hother
      simp only [Function.update_self, if_true]
      omega
    · simp only [Function.update_of_ne hother, if_neg hother, Nat.add_zero]

/-- What a user does to the account of a contract that has approved nobody. -/
theorem apply_user {l l' : Ledger} {manager sender : Address} {c : TokenCall}
    (hsender : sender ≠ manager) (hzero : ∀ spender, l.allowances manager spender = 0)
    (h : l.apply sender c = some l') :
    (∀ spender, l'.allowances manager spender = 0) ∧
      l'.balances manager = l.balances manager + incoming manager c := by
  cases c with
  | transfer recipient amount =>
      obtain ⟨hallowances, hbalances⟩ := move_some h
      refine ⟨fun spender => by rw [hallowances, hzero], ?_⟩
      have hmanager := hbalances manager
      rw [if_neg hsender.symm] at hmanager
      simp only [incoming, eq_comm (a := recipient)]
      omega
  | transferFrom owner recipient amount =>
      obtain ⟨l₁, hspend, hmove⟩ := Option.bind_eq_some_iff.mp h
      obtain ⟨hbalances₁, hamount, hallowances₁⟩ := spendAllowance_some hspend
      obtain ⟨hallowances, hbalances⟩ := move_some hmove
      refine ⟨fun spender => by rw [hallowances, hallowances₁ manager hzero], ?_⟩
      have hmanager := hbalances manager
      rw [hbalances₁] at hmanager
      simp only [incoming]
      by_cases howner : owner = manager
      · subst howner
        rw [hamount (hzero sender)] at hmanager
        simp at hmanager
        simpa using hmanager
      · rw [if_neg (Ne.symm howner)] at hmanager
        simp only [ne_eq, howner, not_false_eq_true, and_true, eq_comm (a := recipient)]
        omega
  | approve spender amount =>
      rw [apply, Option.some.injEq] at h
      subst h
      exact ⟨fun spender => by simp only [Function.update_of_ne hsender.symm, hzero], rfl⟩
  | mint recipient amount =>
      rw [apply, Option.some.injEq] at h
      subst h
      refine ⟨hzero, ?_⟩
      simp only [incoming]
      by_cases hrecipient : recipient = manager
      · subst hrecipient
        simp
      · simp [Function.update_of_ne (Ne.symm hrecipient), hrecipient]
  | burn amount =>
      obtain ⟨hallowances, hbalances⟩ := take_some h
      refine ⟨fun spender => by rw [hallowances, hzero], ?_⟩
      have hmanager := hbalances manager
      rw [if_neg hsender.symm] at hmanager
      exact hmanager
  | burnFrom account amount =>
      obtain ⟨l₁, hspend, htake⟩ := Option.bind_eq_some_iff.mp h
      obtain ⟨hbalances₁, hamount, hallowances₁⟩ := spendAllowance_some hspend
      obtain ⟨hallowances, hbalances⟩ := take_some htake
      refine ⟨fun spender => by rw [hallowances, hallowances₁ manager hzero], ?_⟩
      have hmanager := hbalances manager
      rw [hbalances₁] at hmanager
      by_cases haccount : account = manager
      · subst haccount
        rw [hamount (hzero sender)] at hmanager
        simpa [incoming] using hmanager
      · rw [if_neg (Ne.symm haccount)] at hmanager
        exact hmanager
  | payFee => contradiction

end Ledger

/-! ## the books of the manager -/

/-- The amounts of the events about a token, weighed event by event. -/
def State.amount (s : State ρ) (token : Address) (weight : Event → Nat) : Nat :=
  ((s.events.filter fun event => event.token = token).map weight).sum

theorem State.amount_emit (s : State ρ) {token : Address} {event : Event}
    (h : event.token = token) (weight : Event → Nat) :
    (s.emit event).amount token weight = weight event + s.amount token weight := by
  rw [amount, emit, List.filter_cons_of_pos (by simpa using h), List.map_cons, List.sum_cons, amount]

/-- The amount of a `BridgingRequested` event. -/
def Event.requested : Event → Nat
  | .bridgingRequested _ _ _ amount => amount.toNat
  | .bridgingAccepted .. => 0

/-- The amount of a `BridgingAccepted` event. -/
def Event.accepted : Event → Nat
  | .bridgingRequested .. => 0
  | .bridgingAccepted _ _ amount => amount.toNat

/-- The amount of a `BridgingAccepted` event unless the receiver is the manager, which then
keeps it. -/
def Event.paidOut (manager : Address) : Event → Nat
  | .bridgingRequested .. => 0
  | .bridgingAccepted recipient _ amount => if recipient = manager then 0 else amount.toNat

/-- The balance of the manager, for a token that started with the balance `initial`. -/
structure Booked (d : Deployment ρ) (token : Address) (initial : Nat) (s : State ρ) : Prop where
  unapproved : ∀ spender, (s.ledgers token).allowances d.manager spender = 0
  books : s.tokenSupplyType token ≠ .gear →
    (s.ledgers token).balances d.manager + s.amount token (Event.paidOut d.manager) =
      initial + s.amount token Event.requested + s.direct token

theorem keptByOwn_booked (d : Deployment ρ) (token : Address) (initial : Nat) :
    KeptByOwn d token (Booked d token initial) where
  same := by
    intro s s' hsame h
    refine ⟨by rw [hsame.ledger]; exact h.unapproved, ?_⟩
    rw [hsame.supplyType, hsame.ledger, hsame.direct, State.amount, State.amount, hsame.events]
    exact h.books
  burned := by
    intro s sender amount destination ledger h hsender hgear hledger
    obtain ⟨l₁, hspend, htake⟩ := Option.bind_eq_some_iff.mp hledger
    obtain ⟨-, -, hallowances₁⟩ := Ledger.spendAllowance_some hspend
    obtain ⟨hallowances, -⟩ := Ledger.take_some htake
    refine ⟨?_, fun hne => absurd hgear hne⟩
    intro spender
    simp only [State.emit, State.setLedger, Function.update_self]
    rw [hallowances, hallowances₁ d.manager h.unapproved]
  locked := by
    intro s sender amount destination ledger h hsender hgear hledger
    obtain ⟨l₁, hspend, hmove⟩ := Option.bind_eq_some_iff.mp hledger
    obtain ⟨hbalances₁, -, hallowances₁⟩ := Ledger.spendAllowance_some hspend
    obtain ⟨hallowances, hbalances⟩ := Ledger.move_some hmove
    refine ⟨?_, ?_⟩
    · intro spender
      simp only [State.emit, State.setLedger, Function.update_self]
      rw [hallowances, hallowances₁ d.manager h.unapproved]
    · intro _
      have hbooks := h.books hgear
      have hmanager := hbalances d.manager
      rw [hbalances₁, if_neg hsender.symm, if_pos rfl] at hmanager
      rw [State.amount_emit _ (by rfl), State.amount_emit _ (by rfl)]
      simp only [State.emit, State.setLedger, State.setSupplyType, Function.update_self,
        Event.requested, Event.paidOut, State.amount] at hbooks ⊢
      omega
  unlocked := by
    intro s receiver amount ledger h htype hledger
    obtain ⟨hallowances, hbalances⟩ := Ledger.move_some hledger
    refine ⟨?_, ?_⟩
    · intro spender
      simp only [State.emit, State.setLedger, Function.update_self]
      rw [hallowances, h.unapproved]
    · intro _
      have hbooks := h.books (by rw [htype]; decide)
      have hmanager := hbalances d.manager
      rw [if_pos rfl] at hmanager
      rw [State.amount_emit _ (by rfl), State.amount_emit _ (by rfl)]
      simp only [State.emit, State.setLedger, Function.update_self, Event.requested, Event.paidOut,
        State.amount, eq_comm (a := receiver)] at hbooks ⊢
      split_ifs at hmanager ⊢ <;> omega
  minted := by
    intro s receiver amount ledger h htype hledger
    rw [Ledger.apply, Option.some.injEq] at hledger
    subst hledger
    refine ⟨?_, fun hne => absurd (Function.update_self ..) hne⟩
    intro spender
    simp only [State.emit, State.setLedger, Function.update_self]
    exact h.unapproved spender
  used := by
    intro s sender c ledger h hsender hledger
    obtain ⟨hallowances, hbalance⟩ := Ledger.apply_user hsender h.unapproved hledger
    refine ⟨?_, ?_⟩
    · intro spender
      simp only [State.setLedger, Function.update_self]
      exact hallowances spender
    · intro hgear
      have hbooks := h.books hgear
      simp only [State.setLedger, State.amount, Function.update_self] at hbooks ⊢
      omega

/-! ## tokens of Gear supply -/

/-- What the first bridging of a token makes of it. -/
def Event.supplyType : Event → SupplyType
  | .bridgingRequested .. => .ethereum
  | .bridgingAccepted .. => .gear

/-- The first bridging of a token. -/
def State.firstUse (s : State ρ) (token : Address) : Option Event :=
  (s.events.filter fun event => event.token = token).getLast?

theorem State.firstUse_emit (s : State ρ) {token : Address} {event : Event}
    (h : event.token = token) :
    (s.emit event).firstUse token = some ((s.firstUse token).getD event) := by
  rw [firstUse, emit, List.filter_cons_of_pos (by simpa using h), List.getLast?_cons, firstUse]

/-- The supply type of a token is the direction of its first bridging. -/
def Typed (token : Address) (s : State ρ) : Prop :=
  s.tokenSupplyType token = ((s.firstUse token).map Event.supplyType).getD .unknown

theorem Event.supplyType_ne_unknown (event : Event) : event.supplyType ≠ .unknown := by
  intro h
  cases event <;> cases h

/-- The event of a bridging decides the type of a token that had none. -/
theorem Typed.emit {token : Address} {s s' : State ρ} {event : Event} (h : Typed token s)
    (hevents : s'.events = s.events) (htoken : event.token = token)
    (hnew : s.tokenSupplyType token = .unknown → s'.tokenSupplyType token = event.supplyType)
    (hold : s.tokenSupplyType token ≠ .unknown →
      s'.tokenSupplyType token = s.tokenSupplyType token) :
    Typed token (s'.emit event) := by
  have hfirst : s'.firstUse token = s.firstUse token := by
    rw [State.firstUse, hevents, State.firstUse]
  unfold Typed at h ⊢
  rw [State.firstUse_emit s' htoken, hfirst]
  show s'.tokenSupplyType token = _
  cases hused : s.firstUse token with
  | none =>
      rw [hused] at h
      exact hnew h
  | some e =>
      rw [hused] at h
      rw [hold (by rw [h]; exact e.supplyType_ne_unknown), h]
      rfl

theorem keptByOwn_typed (d : Deployment ρ) (token : Address) :
    KeptByOwn d token (Typed token) where
  same := by
    intro s s' hsame h
    unfold Typed State.firstUse at h ⊢
    rw [hsame.supplyType, hsame.events]
    exact h
  burned := by
    intro s sender amount destination ledger h _ hgear _
    refine h.emit rfl rfl ?_ fun _ => rfl
    intro hunknown
    rw [hgear] at hunknown
    contradiction
  locked := by
    intro s sender amount destination ledger h _ hgear _
    refine h.emit rfl rfl (fun _ => Function.update_self ..) ?_
    intro hknown
    have hethereum : s.tokenSupplyType token = .ethereum := by
      cases ht : s.tokenSupplyType token <;> simp_all
    exact (Function.update_self ..).trans hethereum.symm
  unlocked := by
    intro s receiver amount ledger h htype _
    refine h.emit rfl rfl ?_ fun _ => rfl
    intro hunknown
    rw [htype] at hunknown
    contradiction
  minted := by
    intro s receiver amount ledger h htype _
    refine h.emit rfl rfl (fun _ => Function.update_self ..) ?_
    intro hknown
    have hgear : s.tokenSupplyType token = .gear := by
      cases ht : s.tokenSupplyType token <;> simp_all
    exact (Function.update_self ..).trans hgear.symm
  used := by
    intro s sender c ledger h _ _
    exact h

/-- The calls `ERC20GearSupply` accepts: `mint` of its owner, and what `ERC20Burnable`
accepts. -/
def gearSupply (token owner : Address) (s : State ρ) (sender : Address) : TokenCall → Bool
  | .transfer recipient _ => recipient ≠ 0
  | .transferFrom account recipient _ => account ≠ 0 ∧ recipient ≠ 0
  | .approve spender _ => spender ≠ 0
  | .mint recipient amount =>
      sender = owner ∧ recipient ≠ 0 ∧ (s.ledgers token).totalSupply + amount.toNat < 2 ^ 256
  | .burn _ => true
  | .burnFrom account _ => account ≠ 0
  | .payFee => false

/-- The manager does not take the token for one of Ethereum supply, and mints what a payload
of the VFT manager says, as far as the token can be minted. -/
def MintsPayloads (d : Deployment ρ) (token : Address) (s : State ρ) : Prop :=
  s.tokenSupplyType token ≠ .ethereum ∧
  ∀ (callback : Code (State ρ) (Call ρ) → State ρ → Option (Bool × State ρ)) (receiver : Address)
    (amount : Word), receiver ≠ 0 → (s.ledgers token).totalSupply + amount.toNat < 2 ^ 256 →
    ∃ s', processVaraMessage d callback s d.messageQueue d.vftManager
        (⟨receiver, token, amount⟩ : VftManager.Payload).pack = .ok s' ∧
      (s'.ledgers token).balances receiver = (s.ledgers token).balances receiver + amount.toNat ∧
      (s'.ledgers token).totalSupply = (s.ledgers token).totalSupply + amount.toNat

theorem mintsPayloads_iff {token : Address} (hmanager : token ≠ d.manager)
    (htoken : d.contracts token = .erc20 (gearSupply token d.manager)) (s : State ρ) :
    MintsPayloads d token s ↔ s.tokenSupplyType token ≠ .ethereum := by
  refine ⟨And.left, fun htype => ⟨htype, ?_⟩⟩
  intro callback receiver amount hreceiver hfits
  have haccepts : ∀ s' : State ρ, s'.ledgers = s.ledgers →
      gearSupply token d.manager s' d.manager (.mint receiver amount) = true := by
    intro s' hledgers
    rw [gearSupply, hledgers]
    exact decide_eq_true ⟨rfl, hreceiver, hfits⟩
  have hcall : ∀ s' : State ρ, s'.ledgers = s.ledgers →
      external d callback d.manager token (.mint receiver amount) s' = some (true, s'.setLedger token
        { s.ledgers token with
          balances := Function.update (s.ledgers token).balances receiver
            ((s.ledgers token).balances receiver + amount.toNat)
          totalSupply := (s.ledgers token).totalSupply + amount.toNat }) := by
    intro s' hledgers
    rw [external, if_neg hmanager, htoken]
    simp only [haccepts s' hledgers, if_true]
    rw [hledgers]
    rfl
  have hledgers : (if s.tokenSupplyType token = .unknown then s.setSupplyType token .gear
      else s).ledgers = s.ledgers := by
    split <;> rfl
  rw [processVaraMessage, if_neg (by simp), parsePayload_pack]
  simp only [ne_eq, not_true_eq_false, if_false, if_neg htype, hcall _ hledgers]
  refine ⟨_, rfl, ?_, ?_⟩
  · simp [State.emit, State.setLedger]
  · simp [State.emit, State.setLedger]

/-! ## runs -/

/-- A deployed manager: no token is known, and it has approved nobody. -/
structure Deployed (d : Deployment ρ) (s : State ρ) : Prop where
  unknown : ∀ token, s.tokenSupplyType token = .unknown
  events : s.events = []
  direct : ∀ token, s.direct token = 0
  unapproved : ∀ token spender, (s.ledgers token).allowances d.manager spender = 0

theorem Deployed.booked {s : State ρ} (h : Deployed d s) (token : Address) :
    Booked d token ((s.ledgers token).balances d.manager) s := by
  refine ⟨h.unapproved token, ?_⟩
  intro _
  rw [State.amount, State.amount, h.events, h.direct]
  rfl

/-- The manager at `1`, the queue at `2`, a token of Ethereum supply at `5`, one of Gear
supply at `6`, and at `8` a token that requests a bridging of token `5` whenever it is
called. -/
def sampleDeployment : Deployment Unit where
  manager := 1
  messageQueue := 2
  vftManager := 3
  contracts address :=
    if address = 5 then .erc20 fun _ _ c => match c with | .mint .. | .burnFrom .. => false | _ => true
    else if address = 6 then .erc20 (gearSupply 6 1)
    else if address = 8 then .foreign fun _ _ => .call (.requestBridging 8 5 30 0) fun _ => .ret true
    else .foreign fun _ _ => .revert

/-- Accounts `7` and `8` have 100 of every token, and have approved the manager. -/
def sampleState : State Unit where
  tokenSupplyType _ := .unknown
  events := []
  ledgers _ := ⟨fun account => if account = 7 ∨ account = 8 then 100 else 0,
    fun owner spender => if owner ≠ 1 ∧ spender = 1 then 100 else 0, 200⟩
  direct _ := 0
  rest := ()

theorem deployed_sampleState : Deployed sampleDeployment sampleState :=
  ⟨fun _ => rfl, rfl, fun _ => rfl, fun _ _ => rfl⟩

/-- A transaction with a single call. -/
def single (c : Call Unit) : Transaction (State Unit) (Call Unit) := ⟨9, .call c .ret⟩

/-- A payload of the VFT manager. -/
def payload (receiver token : Address) (amount : Word) : Call Unit :=
  .processVaraMessage 2 3 (⟨receiver, token, amount⟩ : VftManager.Payload).pack

/-- **The books balance**, over every sequence of transactions, with foreign tokens that
call the manager back: a supply type is set once, and the balance of the manager of an
`ERC20` of Ethereum supply is what it had, what was requested and what was sent to it
directly, less what was accepted for others than the manager. -/
theorem books_balance (d : Deployment ρ) (s₀ : State ρ) (h₀ : Deployed d s₀)
    (transactions : List (Transaction (State ρ) (Call ρ))) :
    (∀ (more : List (Transaction (State ρ) (Call ρ))) (token : Address),
      (run (contracts d) transactions s₀).tokenSupplyType token ≠ .unknown →
      (run (contracts d) (transactions ++ more) s₀).tokenSupplyType token =
        (run (contracts d) transactions s₀).tokenSupplyType token) ∧
    ∀ token accepts, d.contracts token = .erc20 accepts →
      (run (contracts d) transactions s₀).tokenSupplyType token = .ethereum →
      ((run (contracts d) transactions s₀).ledgers token).balances d.manager +
          (run (contracts d) transactions s₀).amount token (Event.paidOut d.manager) =
        (s₀.ledgers token).balances d.manager +
          (run (contracts d) transactions s₀).amount token Event.requested +
          (run (contracts d) transactions s₀).direct token := by
  refine ⟨?_, ?_⟩
  · intro more token hknown
    rw [run_append]
    have hkept : Kept (run (contracts d) transactions s₀)
        (run (contracts d) more (run (contracts d) transactions s₀)) :=
      run_rel Kept.refl Kept.trans (fun callback hcallback => contracts_kept hcallback) more _
    exact hkept token hknown
  · intro token accepts htoken htype
    have hbooked : Booked d token ((s₀.ledgers token).balances d.manager)
        (run (contracts d) transactions s₀) :=
      run_invariant (fun callback hcallback c s s' hcall hI =>
        (keptByOwn_booked d token _).contracts htoken hcallback c s s' hcall hI) transactions
        (h₀.booked token)
    exact hbooked.books (by rw [htype]; decide)

/-- A bridging of token `8` that requests one of token `5`, tokens sent to the manager
directly, and a payload for account `7`. -/
theorem books_balance_reentrant :
    let s := run (contracts sampleDeployment) [single (.requestBridging 7 8 1 0),
      single (.token 7 5 (.transfer 1 10)), single (payload 7 5 15)] sampleState
    s.tokenSupplyType 5 = .ethereum ∧ (s.ledgers 5).balances 1 = 25 ∧
      (s.ledgers 5).balances 1 + s.amount 5 (Event.paidOut 1) =
        (sampleState.ledgers 5).balances 1 + s.amount 5 Event.requested + s.direct 5 := by
  intro s
  have htype : s.tokenSupplyType 5 = .ethereum := by decide +kernel
  exact ⟨htype, by decide +kernel,
    (books_balance sampleDeployment sampleState deployed_sampleState _).2 5 _ rfl htype⟩

/-- A payload for the manager itself: it is accepted and moves nothing. -/
theorem selfTransfer_not_booked :
    let s := run (contracts sampleDeployment)
      [single (.requestBridging 7 5 40 0), single (payload 1 5 15)] sampleState
    Deployed sampleDeployment sampleState ∧ s.tokenSupplyType 5 = .ethereum ∧
      (s.ledgers 5).balances 1 + s.amount 5 Event.accepted ≠
        (sampleState.ledgers 5).balances 1 + s.amount 5 Event.requested + s.direct 5 := by
  intro s
  exact ⟨deployed_sampleState, by decide +kernel, by decide +kernel⟩

/-- **When a token of Gear supply can be minted**: in every run, with foreign tokens that
call the manager back, exactly as long as no bridging of the token to Gear was its first
bridging. -/
theorem gearSupply_minted_iff (d : Deployment ρ) (token : Address) (hmanager : token ≠ d.manager)
    (htoken : d.contracts token = .erc20 (gearSupply token d.manager)) (s₀ : State ρ)
    (h₀ : Deployed d s₀) (transactions : List (Transaction (State ρ) (Call ρ))) :
    MintsPayloads d token (run (contracts d) transactions s₀) ↔
      ∀ sender destination amount, (run (contracts d) transactions s₀).firstUse token ≠
        some (.bridgingRequested sender destination token amount) := by
  have hstart : Typed token s₀ := by
    unfold Typed State.firstUse
    rw [h₀.unknown, h₀.events]
    rfl
  have htyped : Typed token (run (contracts d) transactions s₀) :=
    run_invariant (fun callback hcallback c s s' hcall hI =>
      (keptByOwn_typed d token).contracts htoken hcallback c s s' hcall hI) transactions hstart
  rw [mintsPayloads_iff hmanager htoken]
  unfold Typed at htyped
  rw [htyped]
  cases hused : (run (contracts d) transactions s₀).firstUse token with
  | none => simp
  | some event =>
      have hevent : event.token = token := by
        have hmem := List.mem_of_getLast? hused
        simpa using (List.mem_filter.mp hmem).2
      cases event with
      | bridgingRequested sender destination token' amount =>
          cases hevent
          simp [Event.supplyType, Event.token]
      | bridgingAccepted recipient token' amount => simp [Event.supplyType]

/-- A token of Gear supply that was minted before anybody bridged it to Gear. -/
theorem gearSupply_minted_first :
    MintsPayloads sampleDeployment 6 (run (contracts sampleDeployment)
      [single (payload 7 6 10), single (.requestBridging 7 6 5 0)] sampleState) := by
  have hused : (run (contracts sampleDeployment)
      [single (payload 7 6 10), single (.requestBridging 7 6 5 0)] sampleState).firstUse 6 =
      some (.bridgingAccepted 7 6 10) := by
    decide +kernel
  refine (gearSupply_minted_iff sampleDeployment 6 (by decide) rfl sampleState deployed_sampleState
    _).mpr ?_
  intro sender destination amount hrequested
  rw [hused] at hrequested
  cases hrequested

/-- A request to bridge nothing makes the manager take a token of Gear supply, of which it
holds nothing, for one of Ethereum supply: it refuses the next payload. -/
theorem gearSupply_locked_out :
    let s := run (contracts sampleDeployment) [single (.requestBridging 9 6 0 0)] sampleState
    Deployed sampleDeployment sampleState ∧
      sampleDeployment.contracts 6 = .erc20 (gearSupply 6 sampleDeployment.manager) ∧
      s.tokenSupplyType 6 = .ethereum ∧ (s.ledgers 6).balances 1 = 0 ∧
      handler (contracts sampleDeployment) 9 (payload 7 6 10) s = none := by
  intro s
  refine ⟨deployed_sampleState, rfl, by decide +kernel, by decide +kernel, ?_⟩
  have hnone : (handler (contracts sampleDeployment) 9 (payload 7 6 10) s).isNone = true := by
    decide +kernel
  exact Option.isNone_iff_eq_none.mp hnone

end GearBridges.ERC20Manager
