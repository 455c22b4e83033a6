import GearBridges.VftManager.Refunds

/-!
# VftManager.Upgrade

`upgrade` goes over the token map of the paused program: it asks each `VFT` for the balance
of the program, sends that balance to the new program and in the end calls `exit`.  It waits
at every `balance_of` and at every `transfer`.  A pause rejects new calls, but executions
that were suspended when it came go on, and messages sent by then are still executed.

`Chain` puts the program next to the ledgers of the `VFT` programs.  A run starts in a paused
world that the program can reach, with any balances, and interleaves the steps of the
program, the execution of its messages, transfers of other holders and any number of
`upgrade` calls.  After `exit` the program takes no step any more; the `VFT` programs do.

Nothing is left behind if no message that pays the program is unexecuted when a `VFT` answers
`balance_of` (`upgrade_leaves_nothing`).  A deposit that is executed after the answer stays
with the program that has exited (`upgrade_leaves_deposit`).
-/

namespace GearBridges.VftManager

open Transition

/-! ## ledgers -/

/-- Balances of the holders in the `VFT` programs. -/
abbrev Ledger := ActorId → ActorId → Nat

namespace Ledger

/-- Set one balance. -/
def set (b : Ledger) (vft holder : ActorId) (n : Nat) : Ledger :=
  Function.update b vft (Function.update (b vft) holder n)

@[simp] theorem set_apply (b : Ledger) (vft holder v h : ActorId) (n : Nat) :
    b.set vft holder n v h = if v = vft ∧ h = holder then n else b v h := by
  unfold set
  by_cases hv : v = vft
  · subst hv
    simp only [Function.update_self, Function.update_apply, true_and]
  · simp [hv]

/-- Move tokens; `none`: the sender does not have them. -/
def move (b : Ledger) (vft sender receiver : ActorId) (n : Nat) : Option Ledger :=
  if n ≤ b vft sender then
    let b := b.set vft sender (b vft sender - n)
    some (b.set vft receiver (b vft receiver + n))
  else none

/-- What a call that succeeds does to the ledger; `none`: it cannot succeed. -/
def apply (b : Ledger) (vft : ActorId) : Call → Option Ledger
  | .burn sender amount =>
      if amount.toNat ≤ b vft sender then some (b.set vft sender (b vft sender - amount.toNat))
      else none
  | .mint receiver amount => some (b.set vft receiver (b vft receiver + amount.toNat))
  | .transferFrom sender receiver amount => b.move vft sender receiver amount.toNat
  | .sendEthMessage .. => some b

end Ledger

/-! ## the `upgrade` execution -/

/-- The wait points of `upgrade`, with the reply once there is one; the inner `none` is a
reply with an error code. -/
inductive UpgradeWait where
  | balanceOf (vft : ActorId) (reply : Option (Option Nat))
  | transfer (vft : ActorId) (amount : Nat) (reply : Option (Option Bool))

/-- The `VFT` that is being emptied. -/
def UpgradeWait.vft : UpgradeWait → ActorId
  | .balanceOf vft _ | .transfer vft _ _ => vft

/-- An `upgrade` call that has come to a wait point. -/
structure Upgrade where
  vftManagerNew : ActorId
  /-- The mappings after the one that is being emptied. -/
  rest : List ActorId
  wait : UpgradeWait
  /-- The execution has neither timed out nor run out of gas; its message is executed
  anyway. -/
  alive : Bool

/-- How `upgrade` goes on. -/
inductive Progress where
  | wait (w : UpgradeWait) (rest : List ActorId)
  | exit
  | panic

/-- The head of the loop over the mappings. -/
def nextMapping : List ActorId → Progress
  | [] => .exit
  | vft :: rest => .wait (.balanceOf vft none) rest

/-- What follows the `await` that `upgrade` is at; `none`: there is no reply yet. -/
def Upgrade.proceed (u : Upgrade) : Option Progress :=
  match u.wait with
  | .balanceOf _ none => none
  -- "Unable to get the balance of VftManager"
  | .balanceOf _ (some none) => some .panic
  | .balanceOf vft (some (some balance)) =>
      if 0 < balance then some (.wait (.transfer vft balance none) u.rest)
      else some (nextMapping u.rest)
  | .transfer _ _ none => none
  -- "Unable to request a transfer to the new VftManager"
  | .transfer _ _ (some none) => some .panic
  | .transfer _ _ (some (some transferred)) =>
      -- "Unable to transfer tokens to the new VftManager"
      if !transferred then some .panic else some (nextMapping u.rest)

/-! ## the program and the ledgers -/

/-- The program, its `upgrade` executions and the ledgers. -/
structure Chain where
  world : World
  balances : Ledger
  /-- The tokens of `token_map.read_state()`, in the order of the hash map. -/
  mappings : List ActorId
  upgrades : MessageId → Option Upgrade
  /-- `exec::exit` has been called. -/
  exited : Bool

/-- What can happen next. -/
inductive ChainAction where
  /-- A step of the program. -/
  | run (a : Action)
  /-- The destination executes a message of the program. -/
  | execute (id : MessageId) (reply : Reply)
  /-- Another holder transfers tokens. -/
  | transfer (vft sender receiver : ActorId) (amount : Nat)
  | upgrade (sender vftManagerNew : ActorId)
  /-- A `VFT` executes the message `upgrade` waits for; `none` is an error reply. -/
  | answer (id : MessageId) (reply : Option Bool)
  /-- An `upgrade` execution goes on. -/
  | resume (id : MessageId)
  /-- An `upgrade` execution times out or runs out of gas. -/
  | trap (id : MessageId)

/-- The destination of a message executes it. -/
def Action.isExecute : Action → Bool
  | .execute .. => true
  | _ => false

namespace Chain

/-- An `upgrade` execution runs to its next wait point or to its end. -/
def advance (c : Chain) (id : MessageId) (vftManagerNew : ActorId) : Progress → Chain
  | .wait w rest =>
      { c with upgrades := Function.update c.upgrades id (some ⟨vftManagerNew, rest, w, true⟩) }
  | .exit => { c with exited := true }
  | .panic => { c with upgrades := Function.update c.upgrades id none }

/-- A `VFT` executes a message of the program. -/
def execute (c : Chain) (id : MessageId) (reply : Reply) : Option Chain :=
  match c.world.messages id with
  | none => none
  | some m => match VftManager.execute c.world id reply with
    | none => none
    | some w =>
        if reply.isSuccess then
          (c.balances.apply m.destination m.call).map fun b =>
            { c with world := w, balances := b }
        else some { c with world := w }

/-- The first segment of `upgrade`. -/
def upgrade (prog : Program) (c : Chain) (sender vftManagerNew : ActorId) : Option Chain :=
  (VftManager.step prog c.world (.admin sender (.upgrade vftManagerNew))).map fun w =>
    ({ c with world := w } : Chain).advance c.world.nextId vftManagerNew (nextMapping c.mappings)

/-- A `VFT` executes the message that `upgrade` waits for. -/
def answer (prog : Program) (c : Chain) (id : MessageId) (reply : Option Bool) : Option Chain :=
  match c.upgrades id with
  | none => none
  | some u => match u.wait with
    | .balanceOf vft none =>
        let balance := reply.map fun _ => c.balances vft prog.programId
        some { c with
          upgrades := Function.update c.upgrades id
            (some { u with wait := .balanceOf vft (some balance) }) }
    | .transfer vft amount none =>
        let c' := { c with
          upgrades := Function.update c.upgrades id
            (some { u with wait := .transfer vft amount (some reply) }) }
        if reply = some true then
          (c.balances.move vft prog.programId u.vftManagerNew amount).map fun b =>
            { c' with balances := b }
        else some c'
    | _ => none

/-- An `upgrade` execution is woken by the reply. -/
def resume (c : Chain) (id : MessageId) : Option Chain :=
  match c.upgrades id with
  | none => none
  | some u => if !u.alive then none else u.proceed.map (c.advance id u.vftManagerNew)

/-- An `upgrade` execution ends without a reply. -/
def trap (c : Chain) (id : MessageId) : Option Chain :=
  (c.upgrades id).map fun u =>
    { c with upgrades := Function.update c.upgrades id (some { u with alive := false }) }

/-- One step; `none`: the action is not possible. -/
def step (prog : Program) (c : Chain) : ChainAction → Option Chain
  | .run a =>
      if c.exited || !a.ungoverned || a.isExecute then none
      else (VftManager.step prog c.world a).map fun w => { c with world := w }
  | .execute id reply => c.execute id reply
  | .transfer vft sender receiver amount =>
      if sender = prog.programId ∨ receiver = prog.programId then none
      else (c.balances.move vft sender receiver amount).map fun b => { c with balances := b }
  | .upgrade sender vftManagerNew =>
      if c.exited then none else c.upgrade prog sender vftManagerNew
  | .answer id reply => c.answer prog id reply
  | .resume id => if c.exited then none else c.resume id
  | .trap id => if c.exited then none else c.trap id

end Chain

/-- Calls of `request_bridging` come from other actors: the program sends none to itself. -/
def CallsFromOthers (prog : Program) (_ : World) : Action → Prop
  | .requestBridging args _ => args.sender ≠ prog.programId
  | _ => True

/-- A run starts in a paused world, with executions in flight and any balances. -/
structure Chain.Paused (prog : Program) (c : Chain) : Prop where
  reached : Reachable (VftManager.step prog) (CallsFromOthers prog) Seeded c.world
  isPaused : c.world.state.isPaused = true
  mappings : ∀ v, v ∈ c.mappings ↔ (c.world.state.tokenMap.varaToEth v).isSome = true
  upgrades : ∀ id, c.upgrades id = none
  running : c.exited = false

/-! ## what is left behind -/

/-- `TransferFrom` into an account. -/
def Call.transfersTo (holder : ActorId) : Call → Bool
  | .transferFrom _ receiver _ => receiver = holder
  | _ => false

/-- The call adds to the balance of an account. -/
def Call.paysTo (holder : ActorId) : Call → Bool
  | .transferFrom _ receiver _ | .mint receiver _ => receiver = holder
  | _ => false

/-- There is a run in which the message is executed with success. -/
def Chain.CanSucceed (prog : Program) (c : Chain) (id : MessageId) : Prop :=
  ∃ c', Reachable (Chain.step prog) free (· = c) c' ∧
    (c'.world.messages id).any (·.delivery.succeeded) = true

/-- The program holds no token of its map, and no `TransferFrom` into it that is in flight
can still succeed. -/
def Chain.LeavesNothing (prog : Program) (c : Chain) : Prop :=
  (∀ v, (c.world.state.tokenMap.varaToEth v).isSome = true → c.balances v prog.programId = 0) ∧
  ∀ id m, c.world.messages id = some m → m.delivery = .sent →
    m.call.transfersTo prog.programId = true → ¬ c.CanSucceed prog id

/-- A message with the property is unexecuted. -/
def Chain.unexecuted (c : Chain) (p : Message → Bool) : Bool :=
  (List.range c.world.nextId).any fun id =>
    (c.world.messages id).any fun m => m.delivery = .sent && p m

/-- Messages that pay the program in a `VFT`. -/
def payment (prog : Program) (vft : ActorId) (m : Message) : Bool :=
  m.destination = vft && m.call.paysTo prog.programId

/-- Deposits in a `VFT` that `upgrade` does not go over. -/
def strayDeposit (prog : Program) (mappings : List ActorId) (m : Message) : Bool :=
  m.destination ∉ mappings && m.call.transfersTo prog.programId

/-- No payment to the program is unexecuted when a `VFT` answers the `balance_of` of an
`upgrade`; when `upgrade` is called, the new program is another one and no deposit outside
the token map is unexecuted. -/
def Chain.settled (prog : Program) (c : Chain) : ChainAction → Bool
  | .upgrade _ vftManagerNew =>
      vftManagerNew ≠ prog.programId && !c.unexecuted (strayDeposit prog c.mappings)
  | .answer id _ => match c.upgrades id with
    | some u => match u.wait with
      | .balanceOf vft none => !u.alive || !c.unexecuted (payment prog vft)
      | _ => true
    | none => true
  | _ => true

/-- The condition on every step of a run. -/
def Chain.Settled (prog : Program) (c : Chain) (a : ChainAction) : Prop :=
  c.settled prog a = true

instance (prog : Program) : ∀ c a, Decidable (Chain.Settled prog c a) :=
  fun c a => inferInstanceAs (Decidable (c.settled prog a = true))

/-! ## a paused program -/

variable {prog : Program} {w w' : World}

/-- No execution that may still enter the refund branch was called by the program itself. -/
def CalledByOthers (prog : Program) (w : World) : Prop :=
  ∀ e x l, w.executions e = some x → x.wait.request? = some l → l.details.sender ≠ prog.programId

theorem CalledByOthers.step {a : Action} (hw : CalledByOthers prog w)
    (hok : CallsFromOthers prog w a) (h : Effect prog w a w') : CalledByOthers prog w' := by
  intro e x l hx hl
  have hold := hw e
  cases h with
  | quiet _ _ _ _ hexecutions => exact hold x l (hexecutions e x hx) hl
  | requested hd =>
      rw [World.suspend_executions, Function.update_apply] at hx
      split at hx
      · cases hx
        cases hl
        rw [hd]
        exact hok
      · exact hold x l hx hl
  | _ =>
      simp at hx
      grind

theorem calledByOthers_of_reachable
    (h : Reachable (VftManager.step prog) (CallsFromOthers prog) Seeded w) :
    Fresh w ∧ CalledByOthers prog w := by
  refine h.invariant (I := fun w => Fresh w ∧ CalledByOthers prog w) ?_ ?_
  · rintro _ ⟨config, actorId, rfl⟩
    refine ⟨.seed config actorId, ?_⟩
    intro e x l hx
    contradiction
  · rintro w a w' ⟨hf, hw⟩ hok hs
    exact ⟨hf.step (step_effect hs), hw.step hok (step_effect hs)⟩

/-- No message with the property is unexecuted. -/
def NoneSent (w : World) (p : Message → Bool) : Prop :=
  ∀ id m, w.messages id = some m → m.delivery = .sent → p m = false

theorem Chain.noneSent_of_unexecuted {c : Chain} {p : Message → Bool} (hf : Fresh c.world)
    (h : c.unexecuted p = false) : NoneSent c.world p := by
  intro id m hm hsent
  rw [Chain.unexecuted, List.any_eq_false] at h
  have hid := h id (List.mem_range.mpr (hf.message_lt hm))
  rw [hm] at hid
  simpa [hsent] using hid

/-- Messages that a paused program may still send: to the bridge builtin, and refunds to other
actors. -/
structure Harmless (prog : Program) (p : Message → Bool) : Prop where
  builtin : ∀ s c l, p (builtinMessage s c l) = false
  refund : ∀ msgId d hooked, d.sender ≠ prog.programId →
    p (refundMessage prog msgId d hooked) = false

theorem NoneSent.of_messages {p : Message → Bool} (hn : NoneSent w p)
    (h : ∀ id, w'.messages id = w.messages id) : NoneSent w' p := by
  intro id m hm
  rw [h id] at hm
  exact hn id m hm

theorem NoneSent.post {p : Message → Bool} {m : Message} {i : MessageId} (hn : NoneSent w p)
    (hm : p m = false) (h : ∀ id, w'.messages id = Function.update w.messages i (some m) id) :
    NoneSent w' p := by
  intro id m' hm' hsent
  rw [h id, Function.update_apply] at hm'
  split at hm'
  · cases hm'
    exact hm
  · exact hn id m' hm' hsent

theorem NoneSent.deliver {p : Message → Bool} {m : Message} {i : MessageId} {d : Delivery}
    (hn : NoneSent w p) (hd : d ≠ .sent)
    (h : ∀ id, w'.messages id = Function.update w.messages i (some { m with delivery := d }) id) :
    NoneSent w' p := by
  intro id m' hm' hsent
  rw [h id, Function.update_apply] at hm'
  split at hm'
  · cases hm'
    exact absurd hsent hd
  · exact hn id m' hm' hsent

/-- A paused program rejects the calls that send messages. -/
theorem eq_of_paused_call {a : Action} (hpaused : w.state.isPaused = true)
    (h : step prog w a = some w') : (∀ args sendOk, a ≠ .requestBridging args sendOk) ∧
    (∀ msgId sendOk, a ≠ .handleInterruptedTransfer msgId sendOk) ∧
    (∀ sender key receipt sendOk, a ≠ .submitReceipt sender key receipt sendOk) ∨
    w' = w.bump.finish w.nextId (.failed .paused) := by
  cases a with
  | requestBridging args sendOk =>
      simp only [step, requestBridging, World.bump_state, hpaused, if_true, Option.some.injEq] at h
      exact .inr h.symm
  | handleInterruptedTransfer msgId sendOk =>
      simp only [step, handleInterruptedTransfer, World.bump_state, hpaused, if_true,
        Option.some.injEq] at h
      exact .inr h.symm
  | submitReceipt sender key receipt sendOk =>
      simp only [step, submitReceipt, checkReceipt, hpaused, if_true, Option.some.injEq] at h
      exact .inr h.symm
  | _ => simp

/-- A step of the paused program sends nothing that matters. -/
theorem NoneSent.step {p : Message → Bool} {a : Action} (hp : Harmless prog p)
    (hn : NoneSent w p) (hpaused : w.state.isPaused = true) (hothers : CalledByOthers prog w)
    (h : VftManager.step prog w a = some w') : NoneSent w' p := by
  rcases eq_of_paused_call hpaused h with ⟨hrequest, hrecovery, hsubmit⟩ | rfl
  · cases step_effect h with
    | quiet _ hmessages => exact hn.of_messages hmessages
    | requested => exact absurd rfl (hrequest _ _)
    | recoveryUnsent | recoveryUnhooked | recovery => exact absurd rfl (hrecovery _ _)
    | submitUnhooked | submit => exact absurd rfl (hsubmit _ _ _ _)
    | executed | depositCompleted | returnCompleted | bridgeAnswered | answerIgnored
    | receiptAnswered | hookPanicked => exact hn.deliver (by simp) fun _ => rfl
    | bridging => exact hn.post (hp.builtin _ _ _) fun _ => rfl
    | refundUnbridged hx hl | refundFailed hx hl =>
        exact hn.post (hp.refund _ _ _ (hothers _ _ _ hx (by rw [hl]; rfl))) fun _ => rfl
    | bridged | signalled => exact hn.of_messages fun _ => rfl
  · exact hn.of_messages fun _ => rfl

/-- No new request is made while the program is paused. -/
theorem CalledByOthers.paused_step {a : Action} (hothers : CalledByOthers prog w)
    (hpaused : w.state.isPaused = true) (h : VftManager.step prog w a = some w') :
    CalledByOthers prog w' := by
  rcases eq_of_paused_call hpaused h with ⟨hrequest, -, -⟩ | rfl
  · refine hothers.step ?_ (step_effect h)
    cases a with
    | requestBridging args sendOk => exact absurd rfl (hrequest args sendOk)
    | _ => trivial
  · intro e x l hx
    rw [World.finish_executions, Function.update_apply] at hx
    split at hx
    · contradiction
    · exact hothers e x l hx

theorem payment_harmless (vft : ActorId) : Harmless prog (payment prog vft) where
  builtin := by
    intro s c l
    simp [payment, builtinMessage, Call.paysTo]
  refund := by
    intro msgId d hooked hd
    cases hs : d.tokenSupply <;> simp [payment, refundMessage, refundCall, hs, Call.paysTo, hd]

theorem strayDeposit_harmless (mappings : List ActorId) :
    Harmless prog (strayDeposit prog mappings) where
  builtin := by
    intro s c l
    simp [strayDeposit, builtinMessage, Call.transfersTo]
  refund := by
    intro msgId d hooked hd
    cases hs : d.tokenSupply <;>
      simp [strayDeposit, refundMessage, refundCall, hs, Call.transfersTo, hd]

/-! ## balances -/

theorem Ledger.move_le {b b' : Ledger} {vft sender receiver v h : ActorId} {n : Nat}
    (hmove : b.move vft sender receiver n = some b') (hne : v ≠ vft ∨ h ≠ receiver) :
    b' v h ≤ b v h := by
  unfold move at hmove
  split at hmove
  · cases hmove
    rw [set_apply, if_neg (by tauto), set_apply]
    split
    · next heq =>
        rw [heq.1, heq.2]
        exact Nat.sub_le ..
    · exact le_rfl
  · contradiction

theorem Ledger.move_sender {b b' : Ledger} {vft sender receiver : ActorId} {n : Nat}
    (hmove : b.move vft sender receiver n = some b') (hne : sender ≠ receiver) :
    n ≤ b vft sender ∧ b' vft sender = b vft sender - n := by
  unfold move at hmove
  split at hmove
  · next hn =>
      cases hmove
      exact ⟨hn, by simp [hne]⟩
  · contradiction

/-- Only a call that pays an account adds to its balance. -/
theorem Ledger.apply_le {b b' : Ledger} {vft v h : ActorId} {call : Call}
    (happly : b.apply vft call = some b') (hpays : v ≠ vft ∨ call.paysTo h = false) :
    b' v h ≤ b v h := by
  cases call with
  | burn sender amount =>
      simp only [apply] at happly
      split at happly
      · cases happly
        rw [set_apply]
        split
        · next heq =>
            rw [heq.1, heq.2]
            exact Nat.sub_le ..
        · exact le_rfl
      · contradiction
  | mint receiver amount =>
      cases happly
      rw [set_apply, if_neg]
      rintro ⟨hv, hh⟩
      simp [hv, hh, Call.paysTo] at hpays
  | transferFrom sender receiver amount =>
      refine move_le happly (hpays.imp_right ?_)
      intro hpays hh
      simp [hh, Call.paysTo] at hpays
  | sendEthMessage destination payload =>
      cases happly
      exact le_rfl

/-! ## what the sweep has established -/

/-- The program has at most `n` tokens, and no payment to it is unexecuted. -/
structure AtMost (prog : Program) (c : Chain) (v : ActorId) (n : Nat) : Prop where
  balance : c.balances v prog.programId ≤ n
  settled : NoneSent c.world (payment prog v)

/-- What the reply an `upgrade` waits for, or has got, says about the `VFT`. -/
def UpgradeWait.Holds (prog : Program) (c : Chain) : UpgradeWait → Prop
  | .balanceOf v (some (some n)) | .transfer v n none => AtMost prog c v n
  | .transfer v _ (some (some true)) => AtMost prog c v 0
  | _ => True

/-- The mappings that an `upgrade` is done with are empty. -/
structure Upgrade.Sound (prog : Program) (c : Chain) (u : Upgrade) : Prop where
  swept : ∀ v ∈ c.mappings, v ∈ u.rest ∨ v = u.wait.vft ∨ AtMost prog c v 0
  wait : u.wait.Holds prog c

/-- What `upgrade` may rely on when it goes on. -/
def Progress.Sound (prog : Program) (c : Chain) (vftManagerNew : ActorId) : Progress → Prop
  | .wait w rest => Upgrade.Sound prog c ⟨vftManagerNew, rest, w, true⟩
  | .exit => ∀ v ∈ c.mappings, AtMost prog c v 0
  | .panic => True

variable {c c' : Chain}

theorem nextMapping_sound {vftManagerNew : ActorId} {rest : List ActorId}
    (h : ∀ v ∈ c.mappings, v ∈ rest ∨ AtMost prog c v 0) :
    (nextMapping rest).Sound prog c vftManagerNew := by
  cases rest with
  | nil =>
      intro v hv
      exact (h v hv).resolve_left List.not_mem_nil
  | cons vft rest =>
      refine ⟨?_, trivial⟩
      intro v hv
      rcases h v hv with hmem | hempty
      · rcases List.mem_cons.mp hmem with heq | hmem
        · exact .inr (.inl heq)
        · exact .inl hmem
      · exact .inr (.inr hempty)

/-- One turn of the loop. -/
theorem Upgrade.Sound.proceed {u : Upgrade} {p : Progress} (hu : u.Sound prog c)
    (h : u.proceed = some p) : p.Sound prog c u.vftManagerNew := by
  obtain ⟨new, rest, wait, alive⟩ := u
  obtain ⟨hswept, hwait⟩ := hu
  -- the mapping at hand is empty, so the loop goes on with the rest
  have hnext : ∀ v₀, wait.vft = v₀ → AtMost prog c v₀ 0 → (nextMapping rest).Sound prog c new := by
    intro v₀ hv₀ hempty
    refine nextMapping_sound ?_
    intro v hv
    rcases hswept v hv with hmem | heq | hempty'
    · exact .inl hmem
    · exact .inr (by rw [heq, hv₀]; exact hempty)
    · exact .inr hempty'
  unfold Upgrade.proceed at h
  split at h
  · contradiction
  · cases h
    trivial
  · next vft balance hw =>
      subst hw
      split at h
      · cases h
        exact ⟨hswept, hwait⟩
      · next hzero =>
          cases h
          have hbalance : balance = 0 := by omega
          exact hnext vft rfl (hbalance ▸ hwait)
  · contradiction
  · cases h
    trivial
  · next vft amount transferred hw =>
      subst hw
      cases transferred with
      | false =>
          cases h
          trivial
      | true =>
          cases h
          exact hnext vft rfl hwait

/-! ## steps keep what has been established -/

/-- A step takes nothing of it back. -/
structure Later (prog : Program) (c c' : Chain) : Prop where
  mappings : c'.mappings = c.mappings
  tokenMap : c'.world.state.tokenMap = c.world.state.tokenMap
  atMost : ∀ v n, AtMost prog c v n → AtMost prog c' v n
  stray : NoneSent c.world (strayDeposit prog c.mappings) →
    NoneSent c'.world (strayDeposit prog c.mappings)

theorem Later.refl_of (hw : c'.world = c.world) (hm : c'.mappings = c.mappings)
    (hb : ∀ v, c'.balances v prog.programId ≤ c.balances v prog.programId) : Later prog c c' where
  mappings := hm
  tokenMap := by rw [hw]
  atMost := by
    intro v n h
    exact ⟨(hb v).trans h.balance, by rw [hw]; exact h.settled⟩
  stray := by
    rw [hw]
    exact id

theorem UpgradeWait.Holds.later {u : UpgradeWait} (hu : u.Holds prog c) (h : Later prog c c') :
    u.Holds prog c' := by
  match u, hu with
  | .balanceOf v (some (some n)), hu | .transfer v n none, hu => exact h.atMost v n hu
  | .transfer v _ (some (some true)), hu => exact h.atMost v 0 hu
  | .balanceOf v none, _ | .balanceOf v (some none), _ => trivial
  | .transfer v _ (some none), _ | .transfer v _ (some (some false)), _ => trivial

theorem Upgrade.Sound.later {u : Upgrade} (hu : u.Sound prog c) (h : Later prog c c') :
    u.Sound prog c' where
  swept := by
    intro v hv
    rw [h.mappings] at hv
    rcases hu.swept v hv with hmem | heq | hempty
    · exact .inl hmem
    · exact .inr (.inl heq)
    · exact .inr (.inr (h.atMost v 0 hempty))
  wait := hu.wait.later h

/-- What holds along every run that meets the condition. -/
structure Sweeping (prog : Program) (c : Chain) : Prop where
  fresh : Fresh c.world
  others : CalledByOthers prog c.world
  isPaused : c.world.state.isPaused = true
  mapped : ∀ v, (c.world.state.tokenMap.varaToEth v).isSome = true → v ∈ c.mappings
  receiver : ∀ {id u}, c.upgrades id = some u → u.vftManagerNew ≠ prog.programId
  stray : ∀ {id u}, c.upgrades id = some u → NoneSent c.world (strayDeposit prog c.mappings)
  sound : ∀ {id u}, c.upgrades id = some u → u.alive = true → u.Sound prog c
  exited : c.exited = true → NoneSent c.world (strayDeposit prog c.mappings) ∧
    ∀ v ∈ c.mappings, AtMost prog c v 0

/-- What an `upgrade` execution that is new, or has moved, must come with. -/
structure Upgrade.Admitted (prog : Program) (c : Chain) (u : Upgrade) : Prop where
  receiver : u.vftManagerNew ≠ prog.programId
  stray : NoneSent c.world (strayDeposit prog c.mappings)
  sound : u.alive = true → u.Sound prog c

theorem Sweeping.admitted (hi : Sweeping prog c) {id : MessageId} {u : Upgrade}
    (hu : c.upgrades id = some u) : u.Admitted prog c :=
  ⟨hi.receiver hu, hi.stray hu, hi.sound hu⟩

theorem Upgrade.Admitted.later {u : Upgrade} (hu : u.Admitted prog c) (h : Later prog c c') :
    u.Admitted prog c' where
  receiver := hu.receiver
  stray := by
    rw [h.mappings]
    exact h.stray hu.stray
  sound := fun halive => (hu.sound halive).later h

/-- A step that takes nothing back keeps the invariant if the executions it changes are
admitted. -/
theorem Sweeping.of_later (hi : Sweeping prog c) (hl : Later prog c c') (hf : Fresh c'.world)
    (ho : CalledByOthers prog c'.world) (hp : c'.world.state.isPaused = true)
    (hu : ∀ id u, c'.upgrades id = some u → c.upgrades id = some u ∨ u.Admitted prog c')
    (he : c'.exited = true → c.exited = true ∨ NoneSent c.world (strayDeposit prog c.mappings) ∧
      ∀ v ∈ c.mappings, AtMost prog c v 0) : Sweeping prog c' := by
  have hadmitted : ∀ id u, c'.upgrades id = some u → u.Admitted prog c' := by
    intro id u hid
    rcases hu id u hid with hid | hadmitted
    · exact (hi.admitted hid).later hl
    · exact hadmitted
  refine ⟨hf, ho, hp, ?_, (hadmitted _ _ · |>.receiver), (hadmitted _ _ · |>.stray),
    (hadmitted _ _ · |>.sound), ?_⟩
  · rw [hl.tokenMap, hl.mappings]
    exact hi.mapped
  · rw [hl.mappings]
    intro hexited
    obtain ⟨hstray, hempty⟩ := (he hexited).elim hi.exited id
    exact ⟨hl.stray hstray, fun v hv => hl.atMost v 0 (hempty v hv)⟩

/-- A step on the `upgrade` executions or on the ledgers only. -/
theorem Sweeping.of_upgrades (hi : Sweeping prog c) (hw : c'.world = c.world)
    (hl : Later prog c c')
    (hu : ∀ id u, c'.upgrades id = some u → c.upgrades id = some u ∨ u.Admitted prog c')
    (he : c'.exited = true → c.exited = true ∨ NoneSent c.world (strayDeposit prog c.mappings) ∧
      ∀ v ∈ c.mappings, AtMost prog c v 0) : Sweeping prog c' :=
  hi.of_later hl (by rw [hw]; exact hi.fresh) (by rw [hw]; exact hi.others)
    (by rw [hw]; exact hi.isPaused) hu he

/-- The executions after one of them has changed. -/
theorem admitted_of_update {upgrades : MessageId → Option Upgrade} {id : MessageId} {u : Upgrade}
    (hu : u.Admitted prog c) : ∀ id' u', Function.update upgrades id (some u) id' = some u' →
      upgrades id' = some u' ∨ u'.Admitted prog c := by
  intro id' u' hu'
  rw [Function.update_apply] at hu'
  split at hu'
  · cases hu'
    exact .inr hu
  · exact .inl hu'

/-- `upgrade` goes on. -/
theorem Sweeping.advance (hi : Sweeping prog c) {id : MessageId} {vftManagerNew : ActorId}
    {p : Progress} (hnew : vftManagerNew ≠ prog.programId)
    (hstray : NoneSent c.world (strayDeposit prog c.mappings))
    (hp : p.Sound prog c vftManagerNew) : Sweeping prog (c.advance id vftManagerNew p) := by
  have hl : Later prog c (c.advance id vftManagerNew p) := by
    cases p <;> exact .refl_of rfl rfl fun _ => le_rfl
  cases p with
  | wait w rest =>
      refine hi.of_upgrades rfl hl (admitted_of_update ?_) .inl
      exact ⟨hnew, hstray, fun _ => hp.later hl⟩
  | exit => exact hi.of_upgrades rfl hl (fun _ _ => .inl) fun _ => .inr ⟨hstray, hp⟩
  | panic =>
      refine hi.of_upgrades rfl hl ?_ .inl
      intro id' u' hu'
      refine .inl ?_
      change Function.update c.upgrades id none id' = some u' at hu'
      rw [Function.update_apply] at hu'
      split at hu'
      · contradiction
      · exact hu'

/-- A step of the program, or of the destination of one of its messages, that adds to the
balance of the program only where a payment is unexecuted. -/
theorem Sweeping.world_step (hi : Sweeping prog c) {a : Action} {w : World} {b : Ledger}
    (hs : step prog c.world a = some w) (ha : a.ungoverned = true)
    (hb : ∀ v, NoneSent c.world (payment prog v) →
      b v prog.programId ≤ c.balances v prog.programId) :
    Sweeping prog { c with world := w, balances := b } := by
  have hstate := step_state hs ha
  refine hi.of_later ⟨rfl, congrArg State.tokenMap hstate, ?_, ?_⟩ (hi.fresh.step (step_effect hs))
    (hi.others.paused_step hi.isPaused hs) ((congrArg State.isPaused hstate).trans hi.isPaused)
    (fun _ _ => .inl) .inl
  · intro v n h
    exact ⟨(hb v h.settled).trans h.balance,
      h.settled.step (payment_harmless v) hi.isPaused hi.others hs⟩
  · intro h
    exact h.step (strayDeposit_harmless c.mappings) hi.isPaused hi.others hs

theorem Sweeping.execute (hi : Sweeping prog c) {id : MessageId} {reply : Reply}
    (h : c.execute id reply = some c') : Sweeping prog c' := by
  unfold Chain.execute at h
  split at h
  · contradiction
  next m hm =>
  split at h
  · contradiction
  next w hw =>
  have hs : step prog c.world (.execute id reply) = some w := hw
  split at h
  · obtain ⟨b, hb, rfl⟩ := Option.map_eq_some_iff.mp h
    refine hi.world_step hs rfl ?_
    intro v hv
    refine Ledger.apply_le hb ?_
    have hsent : m.delivery = .sent := by
      simp only [VftManager.execute, hm] at hw
      split at hw
      · next hguard => exact hguard.1
      · contradiction
    -- the message executed pays the program in no `VFT` that is settled
    have hpayment := hv id m hm hsent
    rw [payment, Bool.and_eq_false_iff, decide_eq_false_iff_not] at hpayment
    exact hpayment.imp_left Ne.symm
  · cases h
    exact hi.world_step hs rfl fun _ _ => le_rfl

theorem Sweeping.transfer (hi : Sweeping prog c) {vft sender receiver : ActorId} {amount : Nat}
    {b : Ledger} (hreceiver : receiver ≠ prog.programId)
    (hb : c.balances.move vft sender receiver amount = some b) :
    Sweeping prog { c with balances := b } :=
  hi.of_upgrades rfl (.refl_of rfl rfl fun _ => Ledger.move_le hb (.inr hreceiver.symm))
    (fun _ _ => .inl) .inl

theorem Sweeping.upgrade (hi : Sweeping prog c) {sender vftManagerNew : ActorId}
    (hok : c.settled prog (.upgrade sender vftManagerNew) = true)
    (h : c.upgrade prog sender vftManagerNew = some c') : Sweeping prog c' := by
  obtain ⟨w, hw, rfl⟩ := Option.map_eq_some_iff.mp h
  simp only [Chain.settled, Bool.and_eq_true, decide_eq_true_eq, Bool.not_eq_true'] at hok
  obtain ⟨hnew, hstray⟩ := hok
  have hfresh := hi.fresh.step (step_effect hw)
  obtain ⟨⟨s, config⟩, hrun, rfl⟩ := Option.map_eq_some_iff.mp hw
  have hs : s = { c.world.state with vftManagerNew := some vftManagerNew } := by
    simp only [AdminCall.run] at hrun
    repeat' split at hrun
    all_goals cases hrun
    rfl
  subst hs
  have hc : Sweeping prog { c with world := { c.world.bump with
      state := { c.world.state with vftManagerNew := some vftManagerNew }, config := config } } :=
    hi.of_later ⟨rfl, rfl, fun _ _ h => ⟨h.balance, h.settled⟩, id⟩ hfresh hi.others hi.isPaused
      (fun _ _ => .inl) .inl
  have hsent : NoneSent c.world (strayDeposit prog c.mappings) :=
    Chain.noneSent_of_unexecuted hi.fresh hstray
  exact hc.advance hnew hsent (nextMapping_sound fun _ => .inl)

/-- A `VFT` answers an `upgrade`. -/
theorem Sweeping.answered (hi : Sweeping prog c) {id : MessageId} {u : Upgrade} {b : Ledger}
    {wait : UpgradeWait} (hu : c.upgrades id = some u)
    (hle : ∀ v, b v prog.programId ≤ c.balances v prog.programId) (hvft : wait.vft = u.wait.vft)
    (hholds : u.alive = true → wait.Holds prog { c with balances := b }) :
    Sweeping prog { c with
      balances := b
      upgrades := Function.update c.upgrades id (some { u with wait := wait }) } := by
  have hadmitted := hi.admitted hu
  have hl : Later prog c { c with
      balances := b
      upgrades := Function.update c.upgrades id (some { u with wait := wait }) } :=
    .refl_of rfl rfl hle
  refine hi.of_upgrades rfl hl
    (admitted_of_update ⟨hadmitted.receiver, hadmitted.stray, ?_⟩) .inl
  intro halive
  have hswept := ((hadmitted.sound halive).later hl).swept
  rw [← hvft] at hswept
  exact ⟨hswept, (hholds halive).later (.refl_of rfl rfl fun _ => le_rfl)⟩

theorem Sweeping.answer (hi : Sweeping prog c) {id : MessageId} {reply : Option Bool}
    (hok : c.settled prog (.answer id reply) = true) (h : c.answer prog id reply = some c') :
    Sweeping prog c' := by
  unfold Chain.answer at h
  split at h
  · contradiction
  next u hu =>
  split at h
  · next vft hwait =>
      cases h
      refine hi.answered hu (fun _ => le_rfl) (by rw [hwait]; rfl) ?_
      intro halive
      cases reply with
      | none => trivial
      | some b =>
          simp only [Chain.settled, hu, hwait, halive, Bool.not_true, Bool.false_or,
            Bool.not_eq_true'] at hok
          have hsettled : NoneSent c.world (payment prog vft) :=
            Chain.noneSent_of_unexecuted hi.fresh hok
          exact ⟨le_rfl, hsettled⟩
  · next vft amount hwait =>
      simp only at h
      split at h
      · next hreply =>
          subst hreply
          obtain ⟨b, hb, rfl⟩ := Option.map_eq_some_iff.mp h
          have hne := (hi.receiver hu).symm
          refine hi.answered hu (fun _ => Ledger.move_le hb (.inr hne)) (by rw [hwait]; rfl) ?_
          intro halive
          -- the transfer has taken the whole balance
          obtain ⟨hamount, hbalance⟩ := Ledger.move_sender hb hne
          have hwas := (hi.sound hu halive).wait
          rw [hwait] at hwas
          refine ⟨?_, hwas.settled⟩
          have hle := hwas.balance
          change b vft prog.programId ≤ 0
          omega
      · next hreply =>
          cases h
          refine hi.answered hu (fun _ => le_rfl) (by rw [hwait]; rfl) ?_
          intro _
          match reply, hreply with
          | none, _ | some false, _ => trivial
  · contradiction

theorem Sweeping.resume (hi : Sweeping prog c) {id : MessageId} (h : c.resume id = some c') :
    Sweeping prog c' := by
  unfold Chain.resume at h
  split at h
  · contradiction
  next u hu =>
  split at h
  · contradiction
  next halive =>
  obtain ⟨p, hp, rfl⟩ := Option.map_eq_some_iff.mp h
  exact hi.advance (hi.receiver hu) (hi.stray hu) ((hi.sound hu (by simpa using halive)).proceed hp)

theorem Sweeping.trap (hi : Sweeping prog c) {id : MessageId} (h : c.trap id = some c') :
    Sweeping prog c' := by
  obtain ⟨u, hu, rfl⟩ := Option.map_eq_some_iff.mp h
  have hadmitted := hi.admitted hu
  refine hi.of_upgrades rfl (.refl_of rfl rfl fun _ => le_rfl) (admitted_of_update ?_) .inl
  exact ⟨hadmitted.receiver, hadmitted.stray, fun halive => by contradiction⟩

/-- **Step lemma.** -/
theorem Sweeping.step (hi : Sweeping prog c) {a : ChainAction} (hok : c.Settled prog a)
    (h : c.step prog a = some c') : Sweeping prog c' := by
  cases a with
  | run a =>
      simp only [Chain.step] at h
      split at h
      · contradiction
      next hguard =>
      obtain ⟨w, hw, rfl⟩ := Option.map_eq_some_iff.mp h
      simp only [Bool.or_eq_true, not_or, Bool.not_eq_true', Bool.not_eq_true,
        Bool.not_eq_false] at hguard
      exact hi.world_step hw hguard.1.2 fun _ _ => le_rfl
  | execute id reply => exact hi.execute h
  | transfer vft sender receiver amount =>
      simp only [Chain.step] at h
      split at h
      · contradiction
      next hguard =>
      obtain ⟨b, hb, rfl⟩ := Option.map_eq_some_iff.mp h
      exact hi.transfer (not_or.mp hguard).2 hb
  | upgrade sender vftManagerNew =>
      simp only [Chain.step] at h
      split at h
      · contradiction
      · exact hi.upgrade hok h
  | answer id reply => exact hi.answer hok h
  | resume id =>
      simp only [Chain.step] at h
      split at h
      · contradiction
      · exact hi.resume h
  | trap id =>
      simp only [Chain.step] at h
      split at h
      · contradiction
      · exact hi.trap h

theorem Chain.Paused.sweeping (h : c.Paused prog) : Sweeping prog c where
  fresh := (calledByOthers_of_reachable h.reached).1
  others := (calledByOthers_of_reachable h.reached).2
  isPaused := h.isPaused
  mapped := fun v => (h.mappings v).mpr
  receiver := by
    intro id u hu
    rw [h.upgrades id] at hu
    contradiction
  stray := by
    intro id u hu
    rw [h.upgrades id] at hu
    contradiction
  sound := by
    intro id u hu
    rw [h.upgrades id] at hu
    contradiction
  exited := by
    intro hexited
    rw [h.running] at hexited
    contradiction

theorem sweeping_of_reachable
    (h : Reachable (Chain.step prog) (Chain.Settled prog) (Chain.Paused prog) c) :
    Sweeping prog c :=
  h.invariant (I := Sweeping prog) (fun _ hc => hc.sweeping) fun _ _ _ hi hok hs => hi.step hok hs

/-- **Upgrade**: in every run in which no payment to the program is unexecuted when a `VFT`
answers `balance_of`, no deposit outside the token map is unexecuted when `upgrade` is called
and the new program is another one, nothing is left behind when `exit` is called. -/
theorem upgrade_leaves_nothing (prog : Program) (c : Chain)
    (h : Reachable (Chain.step prog) (Chain.Settled prog) (Chain.Paused prog) c)
    (hexit : c.exited = true) : c.LeavesNothing prog := by
  have hi := sweeping_of_reachable h
  obtain ⟨hstray, hempty⟩ := hi.exited hexit
  refine ⟨?_, ?_⟩
  · intro v hv
    exact Nat.le_zero.mp (hempty v (hi.mapped v hv)).balance
  · intro id m hm hsent htransfer
    -- a deposit in a mapped `VFT` is a payment there, any other one is stray
    by_cases hmem : m.destination ∈ c.mappings
    · have hpayment := (hempty _ hmem).settled id m hm hsent
      cases hcall : m.call <;> simp [payment, hcall, Call.paysTo, Call.transfersTo] at hpayment htransfer
      contradiction
    · have hnone := hstray id m hm hsent
      simp [strayDeposit, hmem, htransfer] at hnone

instance (prog : Program) : ∀ w a, Decidable (CallsFromOthers prog w a) := fun _ a =>
  match a with
  | .requestBridging .. => inferInstanceAs (Decidable (_ ≠ _))
  | .handleInterruptedTransfer .. | .submitReceipt .. | .admin .. | .execute .. | .processReply ..
  | .resume .. | .trap .. | .handleSignal .. => inferInstanceAs (Decidable True)

/-- Account `5` asks to bridge `10` tokens of the `VFT` `100`, which are locked by message `2`;
then the program is paused. -/
def depositInFlight : List Action :=
  [.admin 1 (.mapVaraToEthAddress 100 200 .gear), .requestBridging ⟨5, 0, 100, 10, 300⟩ true,
   .admin 1 .pause]

/-- The world after these steps. -/
def sampleWorld : World :=
  (exec (step (.deployed 3)) (CallsFromOthers (.deployed 3)) sampleSeed depositInFlight).getD
    sampleSeed

/-- The program has `5` tokens and account `5` has the `10` to be locked. -/
def sampleChain : Chain where
  world := sampleWorld
  balances := Ledger.set (Ledger.set (fun _ _ => 0) 100 3 5) 100 5 10
  mappings := [100]
  upgrades := fun _ => none
  exited := false

theorem sampleChain_paused : sampleChain.Paused (.deployed 3) where
  reached := .of_exec (.start sampleSeed_seeded) (rfl :
    exec (step (.deployed 3)) (CallsFromOthers (.deployed 3)) sampleSeed depositInFlight =
      some sampleWorld)
  isPaused := rfl
  mappings := by
    intro v
    have hmap : sampleChain.world.state.tokenMap.varaToEth =
        Function.update (fun _ : ActorId => none) 100 (some (200, TokenSupply.gear)) := rfl
    rw [hmap, Function.update_apply]
    split
    · next hv => simp [sampleChain, hv]
    · next hv => simpa [sampleChain] using hv
  upgrades := fun _ => rfl
  running := rfl

/-- The deposit is executed before `balance_of`: all `15` tokens are moved to program `9`. -/
theorem upgrade_leaves_nothing_fifteen : ∃ c,
    Reachable (Chain.step (.deployed 3)) (Chain.Settled (.deployed 3))
      (Chain.Paused (.deployed 3)) c ∧
    (c.exited = true ∧ c.balances 100 9 = 15) ∧ c.LeavesNothing (.deployed 3) := by
  obtain ⟨c, hc, hr⟩ := exists_reachable_of_exec (Chain.step (.deployed 3))
    (Chain.Settled (.deployed 3)) sampleChain_paused
    [.execute 2 (.bool true), .upgrade 1 9, .answer 4 (some true), .resume 4, .answer 4 (some true),
     .resume 4]
    (fun c => c.exited && c.balances 100 9 = 15) (by decide +kernel)
  rw [Bool.and_eq_true, decide_eq_true_eq] at hr
  exact ⟨c, hc, hr, upgrade_leaves_nothing _ c hc hr.1⟩

/-- The deposit is executed between `balance_of` and `transfer`: its `10` tokens stay with the
program that has exited. -/
theorem upgrade_leaves_deposit : ¬ ∀ (prog : Program) (c : Chain),
    Reachable (Chain.step prog) free (Chain.Paused prog) c → c.exited = true →
      c.LeavesNothing prog := by
  intro hclaim
  obtain ⟨c, hc, hr⟩ := exists_reachable_of_exec (Chain.step (.deployed 3)) free sampleChain_paused
    [.upgrade 1 9, .answer 4 (some true), .execute 2 (.bool true), .resume 4, .answer 4 (some true),
     .resume 4]
    (fun c => c.exited && (c.world.state.tokenMap.varaToEth 100).isSome && c.balances 100 3 = 10)
    (by decide +kernel)
  rw [Bool.and_eq_true, Bool.and_eq_true, decide_eq_true_eq] at hr
  obtain ⟨⟨hexit, hmapped⟩, hbalance⟩ := hr
  have hzero : c.balances 100 3 = 0 := (hclaim _ c hc hexit).1 100 hmapped
  omega

end GearBridges.VftManager
