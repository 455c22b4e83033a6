import GearBridges.EthEvents.CheckProofs
import GearBridges.Lib.BinarySearch
import GearBridges.Lib.Transition

/-!
# HistoricalProxy.Redirect

The historical proxy sends proofs to the `eth-events-*` program that is valid for a slot and
what that program has checked to a client.  The slot is an argument of the call; the slot of
the checked proofs comes with the reply and takes its name.  Nothing compares the two
(`foreign_range`).
-/

namespace GearBridges.HistoricalProxy

open EthereumCommon EthEvents Transition

/-- Address of a Gear actor. -/
abbrev ActorId := BitVec 256

inductive ProxyError where
  | noEndpointForSlot (slot : Slot)
  | sendFailure (text : String)
  | replyFailure (text : String)
  | decodeFailure (text : String)
  | ethereumEventClient (e : EthEvents.Error)

/-! ## endpoints -/

/-- Endpoints with the slots they are active from, in ascending order. -/
structure EndpointList where
  endpoints : List (Slot × ActorId)
  ascending : endpoints.Pairwise fun a b => a.1 < b.1

namespace EndpointList

def new : EndpointList := ⟨[], .nil⟩

/-- A slot is above all those of the list. -/
def Above (l : EndpointList) (slot : Slot) : Prop := ∀ last ∈ l.endpoints.getLast?, last.1 < slot

instance (l : EndpointList) (slot : Slot) : Decidable (l.Above slot) :=
  inferInstanceAs (Decidable (∀ last ∈ l.endpoints.getLast?, last.1 < slot))

theorem ascending_push {l : EndpointList} {slot : Slot} (h : l.Above slot) (actorId : ActorId) :
    (l.endpoints ++ [(slot, actorId)]).Pairwise fun a b => a.1 < b.1 := by
  rw [List.pairwise_append]
  refine ⟨l.ascending, List.pairwise_singleton _ _, ?_⟩
  intro a ha b hb
  rw [List.mem_singleton] at hb
  subst hb
  have hne : l.endpoints ≠ [] := List.ne_nil_of_mem ha
  have hlast : (l.endpoints.getLast hne).1 < slot := h _ (List.getLast?_eq_some_getLast hne)
  have hle : a.1 ≤ (l.endpoints.getLast hne).1 := by
    have : Std.Refl fun a b : Slot × ActorId => a.1 ≤ b.1 := ⟨fun _ => Nat.le_refl _⟩
    exact (l.ascending.imp Nat.le_of_lt).rel_getLast ha
  exact Nat.lt_of_le_of_lt hle hlast

/-- Panics with "new endpoint should have slot >= current" unless the slot is above. -/
def push (l : EndpointList) (slot : Slot) (actorId : ActorId) : Option EndpointList :=
  if h : l.Above slot then some ⟨l.endpoints ++ [(slot, actorId)], ascending_push h actorId⟩ else none

def endpointFor (l : EndpointList) (slot : Slot) : Except ProxyError ActorId :=
  match BinarySearch.std (fun e => compare e.1 slot) l.endpoints with
  | .ok i => match l.endpoints[i]? with
      | some e => .ok e.2
      | none => .error (.noEndpointForSlot slot)
  | .error next =>
      if next ≠ 0 then match l.endpoints[next - 1]? with
        | some e => .ok e.2
        | none => .error (.noEndpointForSlot slot)
      else .error (.noEndpointForSlot slot)

/-- The endpoint active from the last slot that is not above the given one. -/
def Responsible (l : EndpointList) (slot : Slot) (actorId : ActorId) : Prop :=
  ∃ start, (start, actorId) ∈ l.endpoints ∧ start ≤ slot ∧ ∀ e ∈ l.endpoints, e.1 ≤ slot → e.1 ≤ start

/-- Two entries of one slot are the same. -/
theorem eq_of_slot {l : EndpointList} {a b : Slot × ActorId} (ha : a ∈ l.endpoints)
    (hb : b ∈ l.endpoints) (h : a.1 = b.1) : a = b := by
  by_contra hne
  have : Std.Symm fun a b : Slot × ActorId => a.1 ≠ b.1 := ⟨fun _ _ h => h.symm⟩
  exact (l.ascending.imp Nat.ne_of_lt).forall ha hb hne h

theorem Responsible.unique {l : EndpointList} {slot : Slot} {a b : ActorId}
    (ha : l.Responsible slot a) (hb : l.Responsible slot b) : a = b := by
  obtain ⟨startA, hmemA, hleA, hlastA⟩ := ha
  obtain ⟨startB, hmemB, hleB, hlastB⟩ := hb
  have hstart : startA = startB := Nat.le_antisymm (hlastB _ hmemA hleA) (hlastA _ hmemB hleB)
  exact congrArg Prod.snd (eq_of_slot hmemA hmemB hstart)

/-- An entry not above the slot, with only entries above it behind, is responsible. -/
theorem responsible_of_take {l : EndpointList} {slot : Slot} {i : Nat} {e : Slot × ActorId}
    (he : l.endpoints[i]? = some e) (hle : e.1 ≤ slot)
    (habove : ∀ x ∈ l.endpoints.drop (i + 1), slot < x.1) : l.Responsible slot e.2 := by
  refine ⟨e.1, List.mem_of_getElem? he, hle, ?_⟩
  intro x hx hxle
  obtain ⟨j, hj⟩ := List.mem_iff_getElem?.mp hx
  by_cases hij : j ≤ i
  · rcases Nat.lt_or_eq_of_le hij with hlt | rfl
    · obtain ⟨hi', rfl⟩ := List.getElem?_eq_some_iff.mp he
      obtain ⟨hj', rfl⟩ := List.getElem?_eq_some_iff.mp hj
      exact Nat.le_of_lt (List.pairwise_iff_getElem.mp l.ascending j i hj' hi' hlt)
    · rw [he] at hj
      cases hj
      exact Nat.le_refl _
  · have hdrop : x ∈ l.endpoints.drop (i + 1) := by
      refine List.mem_iff_getElem?.mpr ⟨j - (i + 1), ?_⟩
      rw [List.getElem?_drop, show i + 1 + (j - (i + 1)) = j by omega]
      exact hj
    exact absurd hxle (Nat.not_le.mpr (habove x hdrop))

/-- `endpoint_for` either returns the responsible endpoint or there is none. -/
theorem endpointFor_cases (l : EndpointList) (slot : Slot) :
    (∃ a, l.endpointFor slot = .ok a ∧ l.Responsible slot a) ∨
    (l.endpointFor slot = .error (.noEndpointForSlot slot) ∧ ∀ e ∈ l.endpoints, slot < e.1) := by
  have hcorrect := BinarySearch.std_correct
    (BinarySearch.Ordered.of_keys (l.ascending.imp Nat.le_of_lt) slot)
  unfold endpointFor
  cases hsearch : BinarySearch.std (fun e : Slot × ActorId => compare e.1 slot) l.endpoints with
  | ok i =>
      rw [hsearch] at hcorrect
      obtain ⟨e, he, heq⟩ := hcorrect
      rw [Nat.compare_eq_eq] at heq
      left
      refine ⟨e.2, by simp only [he], responsible_of_take he (Nat.le_of_eq heq) ?_⟩
      intro x hx
      obtain ⟨j, hj⟩ := List.mem_iff_getElem?.mp hx
      rw [List.getElem?_drop] at hj
      obtain ⟨hi', rfl⟩ := List.getElem?_eq_some_iff.mp he
      obtain ⟨hj', rfl⟩ := List.getElem?_eq_some_iff.mp hj
      rw [← heq]
      exact List.pairwise_iff_getElem.mp l.ascending i (i + 1 + j) hi' hj' (by omega)
  | error next =>
      rw [hsearch] at hcorrect
      obtain ⟨hle, hbelow, habove⟩ := hcorrect
      simp only [Nat.compare_eq_lt, Nat.compare_eq_gt] at hbelow habove
      by_cases hzero : next = 0
      · right
        subst hzero
        exact ⟨rfl, habove⟩
      · left
        have hlt : next - 1 < l.endpoints.length := by omega
        have he : l.endpoints[next - 1]? = some l.endpoints[next - 1] := List.getElem?_eq_getElem hlt
        have hmem : l.endpoints[next - 1] ∈ l.endpoints.take next := by
          refine List.mem_iff_getElem?.mpr ⟨next - 1, ?_⟩
          rw [List.getElem?_take_of_lt (by omega), he]
        refine ⟨l.endpoints[next - 1].2, by simp only [ne_eq, hzero, not_false_eq_true, if_true, he],
          responsible_of_take he (Nat.le_of_lt (hbelow _ hmem)) ?_⟩
        rw [show next - 1 + 1 = next by omega]
        exact habove

/-- **What `endpoint_for` returns**: the responsible endpoint. -/
theorem endpointFor_iff {l : EndpointList} {slot : Slot} {actorId : ActorId} :
    l.endpointFor slot = .ok actorId ↔ l.Responsible slot actorId := by
  rcases endpointFor_cases l slot with ⟨a, hok, hresponsible⟩ | ⟨herror, habove⟩
  · rw [hok, Except.ok.injEq]
    constructor
    · rintro rfl
      exact hresponsible
    · exact hresponsible.unique
  · rw [herror]
    constructor
    · intro h
      contradiction
    · rintro ⟨start, hmem, hle, -⟩
      exact absurd (habove _ hmem) (Nat.not_lt.mpr hle)

end EndpointList

/-! ## the program -/

structure ProxyState where
  admin : ActorId
  endpoints : EndpointList

/-- What `redirect` waits for, with what it has at hand then. -/
inductive Wait where
  | endpoint
  | client (checked : CheckedProofs)

/-- An execution of `redirect`: its arguments, the endpoint it has chosen, and for the record
the endpoints at the time of the call. -/
structure Redirect where
  slot : Slot
  proofs : Bytes
  client : ActorId
  clientRoute : Bytes
  endpoint : ActorId
  endpoints : EndpointList
  wait : Wait

/-- Messages of the program. -/
inductive Message where
  | checkProofs (endpoint : ActorId) (proofs : Bytes)
  | submitReceipt (client : ActorId) (clientRoute : Bytes) (slot : Slot) (transactionIndex : UInt64)
      (receiptRlp : Bytes)

/-- Event of the program. -/
structure Relayed where
  slot : Slot
  blockNumber : Nat
  transactionIndex : UInt32

/-- A redirect that has returned; `call` is missing if it never waited. -/
structure Returned where
  call : Option Redirect
  result : Except ProxyError (Bytes × Bytes)

structure World where
  state : ProxyState
  waiting : List Redirect
  sent : List Message
  events : List Relayed
  returned : List Returned

/-- The world after the program was created by its admin. -/
def Created (admin : ActorId) (w : World) : Prop := w = ⟨⟨admin, .new⟩, [], [], [], []⟩

/-- What comes back from the endpoint. -/
inductive EndpointReply where
  | failed (text : String)
  | undecodable (text : String)
  | refused (e : EthEvents.Error)
  | checked (proofs : CheckedProofs)

inductive Action where
  | updateAdmin (source adminNew : ActorId)
  | addEndpoint (source : ActorId) (slot : Slot) (endpoint : ActorId)
  /-- A call of `redirect`; `sendError` is why the message cannot be sent. -/
  | redirect (slot : Slot) (proofs : Bytes) (client : ActorId) (clientRoute : Bytes)
      (sendError : Option String)
  | endpointReplied (i : Nat) (reply : EndpointReply) (sendError : Option String)
  | clientReplied (i : Nat) (reply : Except String Bytes)
  /-- A waiting execution runs out of gas. -/
  | abort (i : Nat)

/-- An execution that waited ends. -/
def World.finish (w : World) (i : Nat) (call : Redirect) (result : Except ProxyError (Bytes × Bytes)) :
    World :=
  { w with waiting := w.waiting.eraseIdx i, returned := w.returned ++ [⟨some call, result⟩] }

/-- `redirect` up to its first wait.  Without an endpoint it returns at once. -/
def beginRedirect (w : World) (slot : Slot) (proofs : Bytes) (client : ActorId) (clientRoute : Bytes)
    (sendError : Option String) : World :=
  match w.state.endpoints.endpointFor slot with
  | .error e => { w with returned := w.returned ++ [⟨none, .error e⟩] }
  | .ok endpoint => match sendError with
      | some text => { w with
          returned := w.returned ++
            [⟨none, .error (.sendFailure ("failed to send message: " ++ text))⟩] }
      | none => { w with
          waiting := w.waiting ++
            [⟨slot, proofs, client, clientRoute, endpoint, w.state.endpoints, .endpoint⟩]
          sent := w.sent ++ [.checkProofs endpoint proofs] }

/-- `redirect` from the reply of the endpoint to its second wait. -/
def resumeWithProofs (w : World) (i : Nat) (call : Redirect) (reply : EndpointReply)
    (sendError : Option String) : World :=
  match reply with
  | .failed text => w.finish i call (.error (.replyFailure ("failed to receive reply: " ++ text)))
  | .undecodable text => w.finish i call (.error (.decodeFailure ("failed to decode reply: " ++ text)))
  | .refused e => w.finish i call (.error (.ethereumEventClient e))
  | .checked proofs => match sendError with
      | some text =>
          w.finish i call (.error (.sendFailure ("failed to send message to client: " ++ text)))
      | none => { w with
          waiting := w.waiting.set i { call with wait := .client proofs }
          sent := w.sent ++ [.submitReceipt call.client call.clientRoute proofs.slot
            proofs.transactionIndex proofs.receiptRlp] }

/-- `redirect` from the reply of the client to its end. -/
def resumeWithReply (w : World) (i : Nat) (call : Redirect) (checked : CheckedProofs)
    (reply : Except String Bytes) : World :=
  match reply with
  | .error text =>
      w.finish i call (.error (.replyFailure ("failed to receive reply from client: " ++ text)))
  | .ok bytes =>
      { w.finish i call (.ok (checked.receiptRlp, bytes)) with
        events := w.events ++
          [⟨checked.slot, checked.blockNumber, checked.transactionIndex.toUInt32⟩] }

def step (w : World) : Action → Option World
  | .updateAdmin source adminNew =>
      if source ≠ w.state.admin then none
      else some { w with state := { w.state with admin := adminNew } }
  | .addEndpoint source slot endpoint =>
      if source ≠ w.state.admin then none
      else (w.state.endpoints.push slot endpoint).map fun endpoints =>
        { w with state := { w.state with endpoints := endpoints } }
  | .redirect slot proofs client clientRoute sendError =>
      some (beginRedirect w slot proofs client clientRoute sendError)
  | .endpointReplied i reply sendError => match w.waiting[i]? with
      | none => none
      | some call => match call.wait with
          | .endpoint => some (resumeWithProofs w i call reply sendError)
          | .client _ => none
  | .clientReplied i reply => match w.waiting[i]? with
      | none => none
      | some call => match call.wait with
          | .endpoint => none
          | .client checked => some (resumeWithReply w i call checked reply)
  | .abort i => if i < w.waiting.length then some { w with waiting := w.waiting.eraseIdx i } else none

/-- What a step does to the calls that wait and to the messages: one or no call ends, one
begins, or what an endpoint has checked goes to the client of the call. -/
theorem step_cases {w w' : World} {a : Action} (h : step w a = some w') :
    (w'.sent = w.sent ∧ w'.waiting ⊆ w.waiting) ∨
    (∃ slot proofs client clientRoute endpoint,
      a = .redirect slot proofs client clientRoute none ∧
      w'.sent = w.sent ++ [.checkProofs endpoint proofs] ∧
      w'.waiting = w.waiting ++
        [⟨slot, proofs, client, clientRoute, endpoint, w.state.endpoints, .endpoint⟩]) ∨
    ∃ i call checked, a = .endpointReplied i (.checked checked) none ∧ w.waiting[i]? = some call ∧
      w'.sent = w.sent ++ [.submitReceipt call.client call.clientRoute checked.slot
        checked.transactionIndex checked.receiptRlp] ∧
      w'.waiting = w.waiting.set i { call with wait := .client checked } := by
  have hdrop : ∀ i, w.waiting.eraseIdx i ⊆ w.waiting := fun _ _ => List.mem_of_mem_eraseIdx
  cases a with
  | updateAdmin source adminNew =>
      simp only [step, Option.ite_none_left_eq_some, Option.some.injEq] at h
      obtain ⟨-, rfl⟩ := h
      exact .inl ⟨rfl, List.Subset.refl _⟩
  | addEndpoint source slot endpoint =>
      simp only [step, Option.ite_none_left_eq_some, Option.map_eq_some_iff] at h
      obtain ⟨-, _, -, rfl⟩ := h
      exact .inl ⟨rfl, List.Subset.refl _⟩
  | redirect slot proofs client clientRoute sendError =>
      simp only [step, Option.some.injEq] at h
      subst h
      unfold beginRedirect
      split
      · exact .inl ⟨rfl, List.Subset.refl _⟩
      · next endpoint _ =>
        cases sendError with
        | some text => exact .inl ⟨rfl, List.Subset.refl _⟩
        | none => exact .inr (.inl ⟨slot, proofs, client, clientRoute, endpoint, rfl, rfl, rfl⟩)
  | endpointReplied i reply sendError =>
      simp only [step] at h
      split at h
      · contradiction
      · next call hcall =>
        split at h
        · cases h
          cases reply with
          | failed text => exact .inl ⟨rfl, hdrop i⟩
          | undecodable text => exact .inl ⟨rfl, hdrop i⟩
          | refused e => exact .inl ⟨rfl, hdrop i⟩
          | checked proofs =>
              cases sendError with
              | some text => exact .inl ⟨rfl, hdrop i⟩
              | none => exact .inr (.inr ⟨i, call, proofs, rfl, hcall, rfl, rfl⟩)
        · contradiction
  | clientReplied i reply =>
      simp only [step] at h
      split at h
      · contradiction
      · split at h
        · contradiction
        · cases h
          cases reply with
          | error text => exact .inl ⟨rfl, hdrop i⟩
          | ok bytes => exact .inl ⟨rfl, hdrop i⟩
  | abort i =>
      simp only [step, Option.ite_none_right_eq_some, Option.some.injEq] at h
      obtain ⟨-, rfl⟩ := h
      exact .inl ⟨rfl, hdrop i⟩

/-! ## runs -/

/-- What has been sent for a redirect. -/
structure Redirect.Recorded (call : Redirect) (sent : List Message) : Prop where
  chosen : call.endpoints.endpointFor call.slot = .ok call.endpoint
  asked : .checkProofs call.endpoint call.proofs ∈ sent
  forwarded : ∀ checked, call.wait = .client checked →
    .submitReceipt call.client call.clientRoute checked.slot checked.transactionIndex
      checked.receiptRlp ∈ sent

theorem Redirect.Recorded.mono {call : Redirect} {sent sent' : List Message} (h : call.Recorded sent)
    (hsub : sent ⊆ sent') : call.Recorded sent' :=
  ⟨h.chosen, hsub h.asked, fun checked hwait => hsub (h.forwarded checked hwait)⟩

structure Inv (w : World) : Prop where
  waiting : ∀ call ∈ w.waiting, call.Recorded w.sent
  returned : ∀ r ∈ w.returned, ∀ out, r.result = .ok out → ∃ call checked,
    r.call = some call ∧ call.wait = .client checked ∧ out.1 = checked.receiptRlp ∧
      call.Recorded w.sent

theorem Inv.send {w : World} (h : Inv w) (messages : List Message) :
    Inv { w with sent := w.sent ++ messages } where
  waiting := fun call hcall => (h.waiting call hcall).mono (List.subset_append_left _ _)
  returned := by
    intro r hr out hout
    obtain ⟨call, checked, hcall, hwait, hrlp, hrecorded⟩ := h.returned r hr out hout
    exact ⟨call, checked, hcall, hwait, hrlp, hrecorded.mono (List.subset_append_left _ _)⟩

/-- A result that is not a success may be returned at any time. -/
theorem Inv.fail {w : World} (h : Inv w) (call : Option Redirect) (e : ProxyError) :
    Inv { w with returned := w.returned ++ [⟨call, .error e⟩] } where
  waiting := h.waiting
  returned := by
    intro r hr out hout
    rcases List.mem_append.mp hr with hr | hr
    · exact h.returned r hr out hout
    · rw [List.mem_singleton.mp hr] at hout
      contradiction

theorem Inv.drop {w : World} (h : Inv w) (i : Nat) :
    Inv { w with waiting := w.waiting.eraseIdx i } :=
  ⟨fun call hcall => h.waiting call (List.eraseIdx_subset hcall), h.returned⟩

theorem Inv.beginRedirect {w : World} (h : Inv w) (slot : Slot) (proofs : Bytes) (client : ActorId)
    (clientRoute : Bytes) (sendError : Option String) :
    Inv (beginRedirect w slot proofs client clientRoute sendError) := by
  unfold HistoricalProxy.beginRedirect
  split
  · exact h.fail _ _
  · next endpoint hendpoint =>
    split
    · exact h.fail _ _
    · have hsent := h.send [.checkProofs endpoint proofs]
      refine ⟨?_, hsent.returned⟩
      intro call hcall
      rcases List.mem_append.mp hcall with hcall | hcall
      · exact hsent.waiting call hcall
      · rw [List.mem_singleton.mp hcall]
        exact ⟨hendpoint, by simp, fun checked hwait => by contradiction⟩

theorem Inv.resumeWithProofs {w : World} (h : Inv w) {i : Nat} {call : Redirect}
    (hcall : w.waiting[i]? = some call) (reply : EndpointReply) (sendError : Option String) :
    Inv (resumeWithProofs w i call reply sendError) := by
  have hrecorded := h.waiting call (List.mem_of_getElem? hcall)
  unfold HistoricalProxy.resumeWithProofs
  cases reply with
  | failed text => exact (h.drop i).fail _ _
  | undecodable text => exact (h.drop i).fail _ _
  | refused e => exact (h.drop i).fail _ _
  | checked proofs =>
      cases sendError with
      | some text => exact (h.drop i).fail _ _
      | none =>
          have hsent := h.send [.submitReceipt call.client call.clientRoute proofs.slot
            proofs.transactionIndex proofs.receiptRlp]
          refine ⟨?_, hsent.returned⟩
          intro call' hcall'
          rcases List.mem_or_eq_of_mem_set hcall' with hcall' | rfl
          · exact hsent.waiting call' hcall'
          · have hkept := hrecorded.mono (List.subset_append_left w.sent
              [.submitReceipt call.client call.clientRoute proofs.slot proofs.transactionIndex
                proofs.receiptRlp])
            refine ⟨hkept.chosen, hkept.asked, ?_⟩
            rintro checked ⟨⟩
            simp

theorem Inv.resumeWithReply {w : World} (h : Inv w) {i : Nat} {call : Redirect}
    (hcall : w.waiting[i]? = some call) {checked : CheckedProofs} (hwait : call.wait = .client checked)
    (reply : Except String Bytes) : Inv (resumeWithReply w i call checked reply) := by
  unfold HistoricalProxy.resumeWithReply
  cases reply with
  | error text => exact (h.drop i).fail _ _
  | ok bytes =>
      refine ⟨(h.drop i).waiting, ?_⟩
      intro r hr out hout
      rcases List.mem_append.mp hr with hr | hr
      · exact h.returned r hr out hout
      · rw [List.mem_singleton.mp hr] at hout ⊢
        cases hout
        exact ⟨call, checked, rfl, hwait, rfl, h.waiting call (List.mem_of_getElem? hcall)⟩

/-- **One step** keeps the record. -/
theorem Inv.step {w w' : World} {a : Action} (h : Inv w) (hstep : step w a = some w') : Inv w' := by
  cases a with
  | updateAdmin source adminNew =>
      simp only [HistoricalProxy.step] at hstep
      split at hstep
      · contradiction
      · cases hstep
        exact ⟨h.waiting, h.returned⟩
  | addEndpoint source slot endpoint =>
      simp only [HistoricalProxy.step] at hstep
      split at hstep
      · contradiction
      · obtain ⟨endpoints, -, rfl⟩ := Option.map_eq_some_iff.mp hstep
        exact ⟨h.waiting, h.returned⟩
  | redirect slot proofs client clientRoute sendError =>
      cases hstep
      exact h.beginRedirect slot proofs client clientRoute sendError
  | endpointReplied i reply sendError =>
      simp only [HistoricalProxy.step] at hstep
      split at hstep
      · contradiction
      · next call hcall =>
        split at hstep
        · cases hstep
          exact h.resumeWithProofs hcall reply sendError
        · contradiction
  | clientReplied i reply =>
      simp only [HistoricalProxy.step] at hstep
      split at hstep
      · contradiction
      · next call hcall =>
        split at hstep
        · contradiction
        · next checked hwait =>
          cases hstep
          exact h.resumeWithReply hcall hwait reply
  | abort i =>
      simp only [HistoricalProxy.step] at hstep
      split at hstep
      · cases hstep
        exact h.drop i
      · contradiction

theorem inv_of_reachable {admin : ActorId} {w : World}
    (h : Reachable HistoricalProxy.step free (Created admin) w) : Inv w := by
  refine Reachable.invariant (I := Inv) ?_ (fun _ _ _ h _ hstep => h.step hstep) h
  rintro w rfl
  exact ⟨by simp, by simp⟩

/-- **When the right endpoint has checked**: the endpoint of a successful redirect is the one of
the slot it has proven, which goes to the client, exactly when one endpoint was responsible for
that slot and for the slot of the call. -/
theorem redirect_responsible_iff (admin : ActorId) (w : World)
    (h : Reachable HistoricalProxy.step free (Created admin) w) (r : Returned) (hr : r ∈ w.returned)
    (out : Bytes × Bytes) (hok : r.result = .ok out) :
    ∃ call checked, r.call = some call ∧ call.wait = .client checked ∧
      .checkProofs call.endpoint call.proofs ∈ w.sent ∧
      .submitReceipt call.client call.clientRoute checked.slot checked.transactionIndex
        checked.receiptRlp ∈ w.sent ∧
      (call.endpoints.endpointFor checked.slot = .ok call.endpoint ↔
        ∃ a, call.endpoints.Responsible call.slot a ∧ call.endpoints.Responsible checked.slot a) := by
  obtain ⟨call, checked, hcall, hwait, -, hrecorded⟩ := (inv_of_reachable h).returned r hr out hok
  refine ⟨call, checked, hcall, hwait, hrecorded.asked, hrecorded.forwarded checked hwait, ?_⟩
  have hchosen := EndpointList.endpointFor_iff.mp hrecorded.chosen
  rw [EndpointList.endpointFor_iff]
  constructor
  · intro hproven
    exact ⟨call.endpoint, hchosen, hproven⟩
  · rintro ⟨a, ha, hproven⟩
    rw [hchosen.unique ha]
    exact hproven

/-- Endpoint 1 from slot 0 on and endpoint 2 from slot 150 on, a call for the given slot, proofs of
slot 100 checked, and a reply of client 3. -/
def sampleRun (slot : Slot) : List Action :=
  [.addEndpoint 9 0 1, .addEndpoint 9 150 2, .redirect slot [] 3 [] none,
    .endpointReplied 0 (.checked ⟨[7], 0, 7, 100⟩) none, .clientReplied 0 (.ok [])]

/-- Some redirect has succeeded with a call and checked proofs that pass a test. -/
def someSuccess (test : Redirect → CheckedProofs → Bool) (w : World) : Bool :=
  w.returned.any fun r => match r.call, r.result with
    | some call, .ok _ => match call.wait with
        | .client checked => test call checked
        | .endpoint => false
    | _, _ => false

theorem exists_of_someSuccess {test : Redirect → CheckedProofs → Bool} {w : World}
    (h : someSuccess test w = true) : ∃ r out call checked, r ∈ w.returned ∧ r.result = .ok out ∧
      r.call = some call ∧ call.wait = .client checked ∧ test call checked = true := by
  obtain ⟨r, hr, h⟩ := List.any_eq_true.mp h
  split at h
  · next call out hcall hresult =>
    split at h
    · next checked hwait => exact ⟨r, out, call, checked, hr, hresult, hcall, hwait, h⟩
    · contradiction
  · contradiction

/-- The successful redirect of a sample run. -/
theorem exists_redirect {slot : Slot} {test : Redirect → CheckedProofs → Bool}
    (h : (exec HistoricalProxy.step free ⟨⟨9, .new⟩, [], [], [], []⟩ (sampleRun slot)).map
      (someSuccess test) = some true) :
    ∃ w r out call checked, Reachable HistoricalProxy.step free (Created 9) w ∧ r ∈ w.returned ∧
      r.result = .ok out ∧ r.call = some call ∧ call.wait = .client checked ∧
      test call checked = true := by
  obtain ⟨w, hw, hsuccess⟩ := exists_reachable_of_exec HistoricalProxy.step free
    (show Created 9 ⟨⟨9, .new⟩, [], [], [], []⟩ from rfl) (sampleRun slot) (someSuccess test) h
  obtain ⟨r, out, call, checked, hr⟩ := exists_of_someSuccess hsuccess
  exact ⟨w, r, out, call, checked, hw, hr⟩

/-- Below slot 150 endpoint 1 is responsible. -/
theorem responsible_first {l : EndpointList} (h : l.endpoints = [(0, 1), (150, 2)]) {slot : Nat}
    (hslot : slot < 150) : l.Responsible slot 1 := by
  refine ⟨0, by simp [h], Nat.zero_le _, ?_⟩
  simp [h, hslot]

/-- A call for slot 120: its endpoint is that of slot 100. -/
theorem redirect_responsible_iff_same_range :
    ∃ w r out, Reachable HistoricalProxy.step free (Created 9) w ∧ r ∈ w.returned ∧
      r.result = .ok out ∧ ∃ call checked, r.call = some call ∧ call.wait = .client checked ∧
        call.slot = 120 ∧ checked.slot = 100 ∧
        call.endpoints.endpointFor checked.slot = .ok call.endpoint := by
  obtain ⟨w, r, out, call, checked, h, hr, hout, hcall, hwait, htest⟩ :=
    @exists_redirect 120 (fun call checked => decide (call.slot = 120 ∧ checked.slot = 100 ∧
      call.endpoints.endpoints = [(0, 1), (150, 2)])) (by decide +kernel)
  obtain ⟨hslot, hproven, hlist⟩ := of_decide_eq_true htest
  obtain ⟨call', checked', hcall', hwait', -, -, hiff⟩ := redirect_responsible_iff 9 w h r hr out hout
  rw [hcall] at hcall'
  cases hcall'
  rw [hwait] at hwait'
  cases hwait'
  refine ⟨w, r, out, h, hr, hout, call, checked, hcall, hwait, hslot, hproven, hiff.mpr ⟨1, ?_, ?_⟩⟩
  · rw [hslot]
    exact responsible_first hlist (by decide)
  · rw [hproven]
    exact responsible_first hlist (by decide)

/-- A call for slot 200: endpoint 2 has checked the proofs of slot 100, for which endpoint 1 is
responsible, and the client gets them. -/
theorem foreign_range :
    ∃ w r out, Reachable HistoricalProxy.step free (Created 9) w ∧ r ∈ w.returned ∧
      r.result = .ok out ∧ ∃ call checked, r.call = some call ∧ call.wait = .client checked ∧
        call.endpoint = 2 ∧ checked.slot = 100 ∧
        .submitReceipt call.client call.clientRoute 100 checked.transactionIndex
          checked.receiptRlp ∈ w.sent ∧
        call.endpoints.endpointFor checked.slot = .ok 1 ∧
        call.endpoints.endpointFor checked.slot ≠ .ok call.endpoint := by
  obtain ⟨w, r, out, call, checked, h, hr, hout, hcall, hwait, htest⟩ :=
    @exists_redirect 200 (fun call checked => decide (call.endpoint = 2 ∧ checked.slot = 100 ∧
      call.endpoints.endpoints = [(0, 1), (150, 2)])) (by decide +kernel)
  obtain ⟨hendpoint, hproven, hlist⟩ := of_decide_eq_true htest
  obtain ⟨call', checked', hcall', hwait', -, hrecorded⟩ := (inv_of_reachable h).returned r hr out hout
  rw [hcall] at hcall'
  cases hcall'
  rw [hwait] at hwait'
  cases hwait'
  have hresponsible : call.endpoints.endpointFor checked.slot = .ok 1 := by
    rw [EndpointList.endpointFor_iff, hproven]
    exact responsible_first hlist (by decide)
  refine ⟨w, r, out, h, hr, hout, call, checked, hcall, hwait, hendpoint, hproven, ?_, hresponsible, ?_⟩
  · have hforwarded := hrecorded.forwarded checked hwait
    rw [hproven] at hforwarded
    exact hforwarded
  · rw [hresponsible, hendpoint]
    simp

end GearBridges.HistoricalProxy
