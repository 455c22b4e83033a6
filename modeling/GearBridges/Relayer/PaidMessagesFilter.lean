import GearBridges.Lib.FiniteMap
import GearBridges.Relayer.Accumulator

/-!
# Relayer.PaidMessagesFilter

The filter that lets through the messages that have been paid for.  Messages and payments come
over two channels in any order; a message waits in a map under its nonce, a payment in a list of
nonces, and after every receive the list is scanned from its end for nonces whose message is
there.  A nonce that is paid for twice stays in the list, where it does no harm.

Whatever the interleaving, what has been sent on is what has been received and paid for
(`emits_exactly_paid`).
-/

namespace GearBridges.MessageRelayer

open FiniteMap Transition

/-- `PaidMessage`. -/
structure PaidMessage where
  nonce : BitVec 256
deriving DecidableEq

/-- The filter; its metrics are left out. -/
structure PaidMessagesFilter where
  pendingMessages : AList fun _ : BitVec 256 => MessageInBlock
  pendingNonces : List (BitVec 256)

namespace PaidMessagesFilter

def new : PaidMessagesFilter := ⟨∅, []⟩

/-- What `select` picks from the two channels. -/
inductive Event where
  | message (message : MessageInBlock)
  | paidMessage (paid : PaidMessage)

/-- What is received is stored; `none` is the panic on a second message of a nonce. -/
def receive (self : PaidMessagesFilter) : Event → Option PaidMessagesFilter
  | .message message =>
      match self.pendingMessages.lookup message.message.nonceLe with
      | some _ => none
      | none => some { self with
          pendingMessages := self.pendingMessages.insert message.message.nonceLe message }
  | .paidMessage ⟨nonce⟩ => some { self with pendingNonces := self.pendingNonces ++ [nonce] }

/-- The scan of the nonces below an index, from the last one down, with the messages it sends.
`none` is an index out of bounds.  Where the receiver of the messages is gone, the send fails
after the message has been removed, and the scan ends. -/
def emitPaid (receiverOpen : Bool) :
    Nat → PaidMessagesFilter → Option (PaidMessagesFilter × List MessageInBlock)
  | 0, self => some (self, [])
  | i + 1, self =>
      match self.pendingNonces[i]? with
      | none => none
      | some nonce =>
          match self.pendingMessages.lookup nonce with
          | none => emitPaid receiverOpen i self
          | some message =>
              let pendingMessages := self.pendingMessages.erase nonce
              if receiverOpen then
                (emitPaid receiverOpen i ⟨pendingMessages, self.pendingNonces.eraseIdx i⟩).map
                  fun (self, sent) => (self, message :: sent)
              else some ({ self with pendingMessages }, [])

/-- One turn of the loop of `run_inner`, with what it sends.  When one of the channels is closed
the loop ends; after a failed send `run` enters it again. -/
def runInner (self : PaidMessagesFilter) (receiverOpen : Bool) (e : Event) :
    Option (PaidMessagesFilter × List MessageInBlock) :=
  (self.receive e).bind fun self => emitPaid receiverOpen self.pendingNonces.length self

/-! ## the scan -/

/-- Messages wait under their nonce. -/
def Keyed (self : PaidMessagesFilter) : Prop :=
  ∀ n m, self.pendingMessages.lookup n = some m → m.message.nonceLe = n

/-- What a scan of the first `i` nonces leaves and sends. -/
structure Emitted (i : Nat) (before : PaidMessagesFilter)
    (result : PaidMessagesFilter × List MessageInBlock) : Prop where
  /-- The messages of the scanned nonces are gone, the others wait on. -/
  pending : ∀ n, result.1.pendingMessages.lookup n =
    if n ∈ before.pendingNonces.take i then none else before.pendingMessages.lookup n
  /-- The messages of the scanned nonces are sent. -/
  sent : ∀ m, m ∈ result.2 ↔
    ∃ n ∈ before.pendingNonces.take i, before.pendingMessages.lookup n = some m
  nodup : result.2.Nodup
  /-- A nonce leaves the list with its message only. -/
  nonces : ∀ n, n ∈ before.pendingNonces ↔
    n ∈ result.1.pendingNonces ∨ ∃ m ∈ result.2, m.message.nonceLe = n

theorem mem_iff_mem_eraseIdx {α : Type} {l : List α} {i : Nat} (hi : i < l.length) {x : α} :
    x ∈ l ↔ x ∈ l.eraseIdx i ∨ x = l[i] := by
  rw [List.eraseIdx_eq_take_drop_succ]
  conv_lhs => rw [← List.take_append_drop i l, List.drop_eq_getElem_cons hi]
  simp only [List.mem_append, List.mem_cons]
  tauto

theorem mem_take_succ {α : Type} {l : List α} {i : Nat} (hi : i < l.length) {x : α} :
    x ∈ l.take (i + 1) ↔ x ∈ l.take i ∨ x = l[i] := by
  rw [List.take_succ_eq_append_getElem hi, List.mem_append, List.mem_singleton]

theorem Keyed.erase {self : PaidMessagesFilter} (h : self.Keyed) (nonce : BitVec 256)
    (pendingNonces : List (BitVec 256)) :
    Keyed ⟨self.pendingMessages.erase nonce, pendingNonces⟩ := by
  intro n m hm
  by_cases hn : n = nonce
  · rw [hn, AList.lookup_erase] at hm
    contradiction
  · rw [AList.lookup_erase_ne hn] at hm
    exact h n m hm

/-- A scan step that finds no message. -/
theorem Emitted.skip {i : Nat} {self : PaidMessagesFilter}
    {result : PaidMessagesFilter × List MessageInBlock} (hi : i < self.pendingNonces.length)
    (hlook : self.pendingMessages.lookup self.pendingNonces[i] = none)
    (h : Emitted i self result) : Emitted (i + 1) self result := by
  refine ⟨?_, ?_, h.nodup, h.nonces⟩
  · intro n
    rw [h.pending]
    by_cases hn : n = self.pendingNonces[i]
    · subst hn
      simp [hlook]
    · simp [mem_take_succ hi, hn]
  · intro m
    rw [h.sent]
    simp [mem_take_succ hi, or_and_right, exists_or, hlook]

/-- A scan step that sends a message, with the steps after it. -/
theorem Emitted.send {i : Nat} {self : PaidMessagesFilter}
    {result : PaidMessagesFilter × List MessageInBlock} {message : MessageInBlock}
    (hkeyed : self.Keyed) (hi : i < self.pendingNonces.length)
    (hlook : self.pendingMessages.lookup self.pendingNonces[i] = some message)
    (h : Emitted i ⟨self.pendingMessages.erase self.pendingNonces[i],
      self.pendingNonces.eraseIdx i⟩ result) :
    Emitted (i + 1) self (result.1, message :: result.2) := by
  have htake : (self.pendingNonces.eraseIdx i).take i = self.pendingNonces.take i :=
    List.take_eraseIdx_eq_take_of_le _ _ _ (Nat.le_refl i)
  -- what the steps after it send is filed under other nonces
  have hsent : ∀ m, m ∈ result.2 ↔ ∃ n ∈ self.pendingNonces.take i,
      n ≠ self.pendingNonces[i] ∧ self.pendingMessages.lookup n = some m := by
    intro m
    rw [h.sent, htake]
    refine exists_congr fun n => and_congr_right fun _ => ?_
    by_cases hn : n = self.pendingNonces[i]
    · subst hn
      simp
    · simp [hn, AList.lookup_erase_ne hn]
  constructor
  · intro n
    rw [h.pending, htake]
    by_cases hn : n = self.pendingNonces[i]
    · subst hn
      simp [mem_take_succ hi]
    · simp [mem_take_succ hi, hn, AList.lookup_erase_ne hn]
  · intro m
    simp only [List.mem_cons, hsent, mem_take_succ hi]
    constructor
    · rintro (rfl | ⟨n, hn, -, hm⟩)
      · exact ⟨_, .inr rfl, hlook⟩
      · exact ⟨n, .inl hn, hm⟩
    · rintro ⟨n, hn, hm⟩
      by_cases heq : n = self.pendingNonces[i]
      · rw [heq, hlook] at hm
        exact .inl (Option.some.inj hm).symm
      · exact .inr ⟨n, hn.resolve_right heq, heq, hm⟩
  · rw [List.nodup_cons]
    refine ⟨?_, h.nodup⟩
    intro hmem
    obtain ⟨n, -, hn, hm⟩ := (hsent message).mp hmem
    exact hn ((hkeyed n message hm).symm.trans (hkeyed _ message hlook))
  · intro n
    rw [mem_iff_mem_eraseIdx hi, h.nonces]
    simp only [List.mem_cons, exists_eq_or_imp, hkeyed _ message hlook]
    grind

theorem emitPaid_spec {i : Nat} {self : PaidMessagesFilter} (hkeyed : self.Keyed)
    (hi : i ≤ self.pendingNonces.length) :
    ∃ result, emitPaid true i self = some result ∧ Emitted i self result := by
  induction i generalizing self with
  | zero => exact ⟨_, rfl, by simp, by simp, by simp, by simp⟩
  | succ i ih =>
      have hlt : i < self.pendingNonces.length := hi
      rw [emitPaid, List.getElem?_eq_getElem hlt]
      simp only
      cases hlook : self.pendingMessages.lookup self.pendingNonces[i] with
      | none =>
          obtain ⟨result, hresult, h⟩ := ih hkeyed (Nat.le_of_lt hlt)
          exact ⟨result, hresult, h.skip hlt hlook⟩
      | some message =>
          obtain ⟨result, hresult, h⟩ := ih
            (hkeyed.erase self.pendingNonces[i] (self.pendingNonces.eraseIdx i))
            (by rw [List.length_eraseIdx_of_lt hlt]; omega)
          refine ⟨_, ?_, h.send hkeyed hlt hlook⟩
          simp only [hresult, if_true, Option.map_some]

/-! ## runs -/

/-- The filter and what has passed through its channels. -/
structure Run where
  filter : PaidMessagesFilter
  received : List MessageInBlock
  paid : List (BitVec 256)
  emitted : List MessageInBlock

def Run.start : Run := ⟨.new, [], [], []⟩

def Event.messages : Event → List MessageInBlock
  | .message m => [m]
  | .paidMessage _ => []

def Event.nonces : Event → List (BitVec 256)
  | .message _ => []
  | .paidMessage paid => [paid.nonce]

/-- One turn of the loop, the receiver being there; `none` is a panic. -/
def step (w : Run) (e : Event) : Option Run :=
  (w.filter.runInner true e).map fun (filter, sent) =>
    ⟨filter, w.received ++ e.messages, w.paid ++ e.nonces, w.emitted ++ sent⟩

/-- The messages of the channel have different nonces. -/
def Fresh (w : Run) (e : Event) : Prop :=
  ∀ m ∈ e.messages, m.message.nonceLe ∉ w.received.map fun m => m.message.nonceLe

/-- What has been sent on is what has been received and paid for, each message once, and the
other messages received are waiting. -/
structure EmitsPaid (w : Run) : Prop where
  emitted : w.emitted.Perm (w.received.filter fun m => m.message.nonceLe ∈ w.paid)
  pending : ∀ n m, w.filter.pendingMessages.lookup n = some m ↔
    m ∈ w.received ∧ m.message.nonceLe = n ∧ n ∉ w.paid

/-- What is kept from turn to turn. -/
structure Kept (w : Run) : Prop where
  distinct : (w.received.map fun m => m.message.nonceLe).Nodup
  emitted : ∀ m, m ∈ w.emitted ↔ m ∈ w.received ∧ m.message.nonceLe ∈ w.paid
  nodup : w.emitted.Nodup
  pending : ∀ n m, w.filter.pendingMessages.lookup n = some m ↔
    m ∈ w.received ∧ m.message.nonceLe = n ∧ n ∉ w.paid
  /-- A nonce that is paid for is in the list until its message is sent. -/
  nonces : ∀ n, n ∈ w.paid ↔
    n ∈ w.filter.pendingNonces ∨ ∃ m ∈ w.emitted, m.message.nonceLe = n

theorem Kept.start : Kept .start :=
  ⟨by simp [Run.start], by simp [Run.start], by simp [Run.start],
    by simp [Run.start, new], by simp [Run.start, new]⟩

theorem Kept.emitsPaid {w : Run} (h : Kept w) : EmitsPaid w := by
  refine ⟨?_, h.pending⟩
  rw [List.perm_ext_iff_of_nodup h.nodup (h.distinct.of_map.filter _)]
  intro m
  rw [h.emitted, List.mem_filter, decide_eq_true_iff]

/-- What was received in this turn is stored, and the messages that wait are those that are not
sent yet. -/
structure Stored (received : List MessageInBlock) (paid : List (BitVec 256))
    (emitted : List MessageInBlock) (stored : PaidMessagesFilter) : Prop where
  distinct : (received.map fun m => m.message.nonceLe).Nodup
  nodup : emitted.Nodup
  subset : ∀ m ∈ emitted, m ∈ received
  pending : ∀ n m, stored.pendingMessages.lookup n = some m ↔
    m ∈ received ∧ m.message.nonceLe = n ∧ m ∉ emitted
  nonces : ∀ n, n ∈ paid ↔
    n ∈ stored.pendingNonces ∨ ∃ m ∈ emitted, m.message.nonceLe = n

/-- A message that is received is stored under its nonce, which is a new one. -/
theorem Kept.receive_message {w : Run} (h : Kept w) {message : MessageInBlock}
    (hfresh : message.message.nonceLe ∉ w.received.map fun m => m.message.nonceLe) :
    ∃ stored, w.filter.receive (.message message) = some stored ∧
      Stored (w.received ++ [message]) w.paid w.emitted stored := by
  have hnew : ∀ m ∈ w.received, m.message.nonceLe ≠ message.message.nonceLe :=
    fun m hm heq => hfresh (heq ▸ List.mem_map_of_mem hm)
  have hnone : w.filter.pendingMessages.lookup message.message.nonceLe = none := by
    rw [Option.eq_none_iff_forall_ne_some]
    intro m hm
    obtain ⟨hreceived, hn, -⟩ := (h.pending _ m).mp hm
    exact hnew m hreceived hn
  refine ⟨{ w.filter with
    pendingMessages := w.filter.pendingMessages.insert message.message.nonceLe message }, ?_,
    ?_, h.nodup, ?_, ?_, h.nonces⟩
  · simp only [receive, hnone]
  · rw [List.map_append, List.nodup_append]
    refine ⟨h.distinct, by simp, ?_⟩
    simp only [List.map_cons, List.map_nil, List.mem_singleton, forall_eq]
    exact fun n hn heq => hfresh (heq ▸ hn)
  · intro m hm
    exact List.mem_append_left _ ((h.emitted m).mp hm).1
  · intro n m
    simp only [List.mem_append, List.mem_singleton]
    by_cases hn : n = message.message.nonceLe
    · subst hn
      rw [AList.lookup_insert, Option.some.injEq]
      constructor
      · rintro rfl
        exact ⟨.inr rfl, rfl, fun hm => hnew _ ((h.emitted _).mp hm).1 rfl⟩
      · rintro ⟨hm, hn, -⟩
        exact (hm.resolve_left fun hm => hnew m hm hn).symm
    · rw [AList.lookup_insert_ne hn, h.pending, h.emitted]
      constructor
      · rintro ⟨hm, rfl, hpaid⟩
        exact ⟨.inl hm, rfl, fun hm => hpaid hm.2⟩
      · rintro ⟨hm, rfl, hpaid⟩
        have hreceived := hm.resolve_right fun heq => hn (heq ▸ rfl)
        exact ⟨hreceived, rfl, fun hin => hpaid ⟨hreceived, hin⟩⟩

/-- A payment is put into the list, whether it is the first one of its nonce or not. -/
theorem Kept.receive_paidMessage {w : Run} (h : Kept w) (nonce : BitVec 256) :
    Stored w.received (w.paid ++ [nonce]) w.emitted
      { w.filter with pendingNonces := w.filter.pendingNonces ++ [nonce] } := by
  refine ⟨h.distinct, h.nodup, fun m hm => ((h.emitted m).mp hm).1, ?_, ?_⟩
  · intro n m
    rw [h.pending, h.emitted]
    constructor
    · rintro ⟨hm, rfl, hpaid⟩
      exact ⟨hm, rfl, fun hin => hpaid hin.2⟩
    · rintro ⟨hm, rfl, hpaid⟩
      exact ⟨hm, rfl, fun hin => hpaid ⟨hm, hin⟩⟩
  · intro n
    rw [List.mem_append, List.mem_append, h.nonces]
    grind

section

variable {received : List MessageInBlock} {paid : List (BitVec 256)}
  {emitted : List MessageInBlock} {stored : PaidMessagesFilter}

/-- A message received is paid for if its nonce waits or it was sent. -/
theorem Stored.paid_iff (h : Stored received paid emitted stored) {m : MessageInBlock}
    (hm : m ∈ received) :
    m.message.nonceLe ∈ paid ↔ m.message.nonceLe ∈ stored.pendingNonces ∨ m ∈ emitted := by
  rw [h.nonces]
  refine or_congr_right ⟨?_, fun hin => ⟨m, hin, rfl⟩⟩
  rintro ⟨m', hm', hn⟩
  exact List.inj_on_of_nodup_map h.distinct (h.subset m' hm') hm hn ▸ hm'

/-- The scan sends what was received, was not sent and waits for its nonce only. -/
theorem Stored.sent_iff {result : PaidMessagesFilter × List MessageInBlock}
    (h : Stored received paid emitted stored)
    (hscan : Emitted stored.pendingNonces.length stored result) (m : MessageInBlock) :
    m ∈ result.2 ↔ m ∈ received ∧ m ∉ emitted ∧ m.message.nonceLe ∈ stored.pendingNonces := by
  rw [hscan.sent, List.take_length]
  simp only [h.pending]
  grind

/-- What the scan of all nonces makes of a filter in which everything is stored. -/
theorem Stored.kept {result : PaidMessagesFilter × List MessageInBlock}
    (h : Stored received paid emitted stored)
    (hscan : Emitted stored.pendingNonces.length stored result) :
    Kept ⟨result.1, received, paid, emitted ++ result.2⟩ := by
  refine ⟨h.distinct, ?_, ?_, ?_, ?_⟩
  · intro m
    rw [List.mem_append, h.sent_iff hscan]
    constructor
    · rintro (hm | ⟨hm, -, hn⟩)
      · exact ⟨h.subset m hm, (h.paid_iff (h.subset m hm)).mpr (.inr hm)⟩
      · exact ⟨hm, (h.paid_iff hm).mpr (.inl hn)⟩
    · rintro ⟨hm, hn⟩
      rcases (h.paid_iff hm).mp hn with hn | hin
      · by_cases hin : m ∈ emitted
        · exact .inl hin
        · exact .inr ⟨hm, hin, hn⟩
      · exact .inl hin
  · rw [List.nodup_append]
    refine ⟨h.nodup, hscan.nodup, ?_⟩
    intro m hm m' hm' heq
    exact ((h.sent_iff hscan m').mp hm').2.1 (heq ▸ hm)
  · intro n m
    rw [hscan.pending, List.take_length]
    by_cases hn : n ∈ stored.pendingNonces
    · rw [if_pos hn]
      refine iff_of_false (by simp) ?_
      rintro ⟨-, -, hunpaid⟩
      exact hunpaid ((h.nonces n).mpr (.inl hn))
    · rw [if_neg hn, h.pending]
      refine and_congr_right fun hm => and_congr_right ?_
      rintro rfl
      rw [h.paid_iff hm, not_or]
      exact ⟨fun hin => ⟨hn, hin⟩, And.right⟩
  · intro n
    rw [h.nonces, hscan.nonces]
    simp only [List.mem_append, or_and_right, exists_or]
    rw [or_assoc, or_comm (b := ∃ m ∈ emitted, m.message.nonceLe = n)]

end

theorem exists_step {w : Run} (h : Kept w) {e : Event} (hfresh : Fresh w e) :
    ∃ w', step w e = some w' ∧ Kept w' := by
  obtain ⟨stored, hreceive, hstored⟩ : ∃ stored, w.filter.receive e = some stored ∧
      Stored (w.received ++ e.messages) (w.paid ++ e.nonces) w.emitted stored := by
    cases e with
    | message message =>
        simp only [Event.nonces, List.append_nil]
        exact h.receive_message (hfresh message (List.mem_singleton.mpr rfl))
    | paidMessage paid =>
        simp only [Event.messages, List.append_nil]
        exact ⟨_, rfl, h.receive_paidMessage paid.nonce⟩
  have hkeyed : stored.Keyed := fun n m hm => ((hstored.pending n m).mp hm).2.1
  obtain ⟨result, hresult, hscan⟩ := emitPaid_spec hkeyed (Nat.le_refl _)
  refine ⟨_, ?_, hstored.kept hscan⟩
  rw [step, runInner, hreceive, Option.bind_some, hresult, Option.map_some]

theorem kept_of_reachable {w : Run} (h : Reachable step Fresh (· = .start) w) : Kept w := by
  refine h.invariant (I := Kept) ?_ ?_
  · intro w hw
    exact hw ▸ .start
  · intro w e w' hw hfresh hstep
    obtain ⟨w'', hstep', hkept⟩ := exists_step hw hfresh
    cases hstep.symm.trans hstep'
    exact hkept

/-- **The filter sends on exactly the paid messages.**  This holds after every turn of every run
whose messages have different nonces; the next turn goes through; and what has been sent depends
on what has been received from each channel, not on the order. -/
theorem emits_exactly_paid (w : Run) (h : Reachable step Fresh (· = .start) w) :
    EmitsPaid w ∧ (∀ e, Fresh w e → (step w e).isSome) ∧
      ∀ w', Reachable step Fresh (· = .start) w' → w'.received.Perm w.received →
        w'.paid.Perm w.paid → w'.emitted.Perm w.emitted := by
  have hkept := kept_of_reachable h
  refine ⟨hkept.emitsPaid, ?_, ?_⟩
  · intro e hfresh
    obtain ⟨w', hstep, -⟩ := exists_step hkept hfresh
    rw [hstep]
    rfl
  · intro w' h' hreceived hpaid
    have hkept' := kept_of_reachable h'
    rw [List.perm_ext_iff_of_nodup hkept'.nodup hkept.nodup]
    intro m
    rw [hkept'.emitted, hkept.emitted, hreceived.mem_iff, hpaid.mem_iff]

instance (w : Run) (e : Event) : Decidable (Fresh w e) :=
  inferInstanceAs (Decidable (∀ m ∈ e.messages, _))

/-- Two messages and three payments, the second message coming after its payments. -/
theorem emits_exactly_paid_late : ∃ w, EmitsPaid w ∧ w.emitted = [sampleMessage 2 6] ∧
    w.received = [sampleMessage 1 5, sampleMessage 2 6] ∧ w.paid = [2, 3, 2] := by
  obtain ⟨w, hw, hr⟩ := @exists_reachable_of_exec _ _ step Fresh _ (· = .start) .start rfl
    [.paidMessage ⟨2⟩, .message (sampleMessage 1 5), .paidMessage ⟨3⟩, .paidMessage ⟨2⟩,
      .message (sampleMessage 2 6)]
    (fun w => decide (w.emitted = [sampleMessage 2 6]) &&
      (decide (w.received = [sampleMessage 1 5, sampleMessage 2 6]) && decide (w.paid = [2, 3, 2])))
    (by decide +kernel)
  simp only [Bool.and_eq_true, decide_eq_true_eq] at hr
  exact ⟨w, (emits_exactly_paid w hw).1, hr⟩

end PaidMessagesFilter

end GearBridges.MessageRelayer
