import GearBridges.HistoricalProxy.Redirect

/-!
# HistoricalProxy.Endpoints

The endpoint list over any sequence of `push` calls, of which those that panic are rolled back.
`endpoint_for` answers with the accepted endpoint that starts last among those that start at or
before the slot, and a later endpoint changes no answer below it (`endpointFor_pushes`).  A call
goes through exactly when its slot is above all those accepted.
-/

namespace GearBridges.HistoricalProxy.EndpointList

open EthereumCommon

/-! ## sequences of calls -/

/-- A list of endpoints with the calls of `push` that went through. -/
structure Pushes where
  list : EndpointList
  accepted : List (Slot × ActorId)

/-- A call of `push`; a panic leaves everything as it was. -/
def Pushes.call (w : Pushes) (e : Slot × ActorId) : Pushes :=
  match w.list.push e.1 e.2 with
  | none => w
  | some list => ⟨list, w.accepted ++ [e]⟩

/-- The calls of `push` from the empty list on. -/
def pushes (calls : List (Slot × ActorId)) : Pushes := calls.foldl Pushes.call ⟨.new, []⟩

theorem pushes_append (calls later : List (Slot × ActorId)) :
    pushes (calls ++ later) = later.foldl Pushes.call (pushes calls) := by
  rw [pushes, List.foldl_append, pushes]

theorem call_of_above {w : Pushes} {e : Slot × ActorId} (h : w.list.Above e.1) :
    (w.call e).list.endpoints = w.list.endpoints ++ [e] ∧
      (w.call e).accepted = w.accepted ++ [e] := by
  simp [Pushes.call, push, h]

theorem call_of_not_above {w : Pushes} {e : Slot × ActorId} (h : ¬ w.list.Above e.1) :
    w.call e = w := by
  simp [Pushes.call, push, h]

/-- The list holds what was accepted, in the order of the calls. -/
theorem endpoints_pushes (calls : List (Slot × ActorId)) :
    (pushes calls).list.endpoints = (pushes calls).accepted := by
  induction calls using List.reverseRecOn with
  | nil => rfl
  | append_singleton calls e ih =>
      rw [pushes_append, List.foldl_cons, List.foldl_nil]
      by_cases h : (pushes calls).list.Above e.1
      · rw [(call_of_above h).1, (call_of_above h).2, ih]
      · rw [call_of_not_above h, ih]

/-- `endpoint_for` finds no endpoint exactly where all start above the slot. -/
theorem endpointFor_eq_error_iff {l : EndpointList} {slot : Slot} :
    l.endpointFor slot = .error (.noEndpointForSlot slot) ↔ ∀ e ∈ l.endpoints, slot < e.1 := by
  rcases endpointFor_cases l slot with ⟨a, hok, start, hmem, hle, -⟩ | ⟨herror, habove⟩
  · rw [hok]
    refine iff_of_false (by simp) ?_
    intro habove
    exact absurd (habove _ hmem) (Nat.not_lt.mpr hle)
  · exact iff_of_true herror habove

/-- Endpoints that start above the slot make no difference. -/
theorem endpointFor_of_append {l l' : EndpointList} {later : List (Slot × ActorId)} {slot : Slot}
    (happend : l'.endpoints = l.endpoints ++ later) (hlater : ∀ e ∈ later, slot < e.1) :
    l'.endpointFor slot = l.endpointFor slot := by
  rcases endpointFor_cases l slot with ⟨a, hok, start, hmem, hle, hlast⟩ | ⟨herror, habove⟩
  · rw [hok, endpointFor_iff]
    refine ⟨start, by simp [happend, hmem], hle, ?_⟩
    intro e he heslot
    rw [happend, List.mem_append] at he
    rcases he with he | he
    · exact hlast e he heslot
    · exact absurd (hlater e he) (Nat.not_lt.mpr heslot)
  · rw [herror, endpointFor_eq_error_iff]
    intro e he
    rw [happend, List.mem_append] at he
    exact he.elim (habove e) (hlater e)

/-- A later call appends its endpoint or changes nothing. -/
theorem endpoints_pushes_append (calls later : List (Slot × ActorId)) :
    ∃ taken : List (Slot × ActorId), taken ⊆ later ∧
      (pushes (calls ++ later)).list.endpoints = (pushes calls).list.endpoints ++ taken := by
  induction later using List.reverseRecOn with
  | nil => exact ⟨[], by simp, by simp⟩
  | append_singleton later e ih =>
      obtain ⟨taken, hsubset, hendpoints⟩ := ih
      rw [← List.append_assoc, pushes_append (calls ++ later), List.foldl_cons, List.foldl_nil]
      by_cases h : (pushes (calls ++ later)).list.Above e.1
      · refine ⟨taken ++ [e], by grind, ?_⟩
        rw [(call_of_above h).1, hendpoints, List.append_assoc]
      · exact ⟨taken, by grind, by rw [call_of_not_above h, hendpoints]⟩

/-- The last slot of a list is the greatest. -/
theorem above_iff {l : EndpointList} {slot : Slot} :
    l.Above slot ↔ ∀ e ∈ l.endpoints, e.1 < slot := by
  constructor
  · intro h e he
    have hascending := List.pairwise_append.mp (ascending_push h 0)
    exact hascending.2.2 e he _ (List.mem_singleton_self _)
  · intro h last hlast
    exact h last (List.mem_of_getLast? hlast)

/-- A call goes through exactly when its slot is above all those accepted before. -/
theorem accepted_append_iff {calls : List (Slot × ActorId)} {e : Slot × ActorId} :
    (pushes (calls ++ [e])).accepted = (pushes calls).accepted ++ [e] ↔
      ∀ earlier ∈ (pushes calls).accepted, earlier.1 < e.1 := by
  rw [pushes_append, List.foldl_cons, List.foldl_nil, ← endpoints_pushes calls, ← above_iff]
  by_cases h : (pushes calls).list.Above e.1
  · rw [(call_of_above h).2, endpoints_pushes]
    exact iff_of_true rfl h
  · rw [call_of_not_above h, endpoints_pushes]
    exact iff_of_false (by simp) h

/-- Any other call panics and changes nothing. -/
theorem accepted_unchanged_iff {calls : List (Slot × ActorId)} {e : Slot × ActorId} :
    (pushes (calls ++ [e])).accepted = (pushes calls).accepted ↔
      ∃ earlier ∈ (pushes calls).accepted, e.1 ≤ earlier.1 := by
  have hbelow : (∃ earlier ∈ (pushes calls).accepted, e.1 ≤ earlier.1) ↔
      ¬ (pushes calls).list.Above e.1 := by
    simp only [above_iff, endpoints_pushes, not_forall, Nat.not_lt, exists_prop]
  rw [pushes_append, List.foldl_cons, List.foldl_nil, hbelow]
  by_cases h : (pushes calls).list.Above e.1
  · rw [(call_of_above h).2]
    exact iff_of_false (by simp) (not_not_intro h)
  · rw [call_of_not_above h]
    exact iff_of_true rfl h

/-- **What `endpoint_for` answers after any sequence of calls of `push`.**  A call goes through
exactly when its slot is above all those accepted before.  The accepted endpoints are in
ascending order; the answer is the one that starts last among those that do not start above
the slot, and `NoEndpointForSlot` where there is none; calls for slots above it do
not change the answer. -/
theorem endpointFor_pushes (calls : List (Slot × ActorId)) (slot : Slot) :
    (∀ e : Slot × ActorId, (pushes (calls ++ [e])).accepted = (pushes calls).accepted ++ [e] ↔
      ∀ earlier ∈ (pushes calls).accepted, earlier.1 < e.1) ∧
    (∀ e : Slot × ActorId, (pushes (calls ++ [e])).accepted = (pushes calls).accepted ↔
      ∃ earlier ∈ (pushes calls).accepted, e.1 ≤ earlier.1) ∧
    (pushes calls).accepted.Pairwise (fun a b => a.1 < b.1) ∧
    (∀ actorId, (pushes calls).list.endpointFor slot = .ok actorId ↔
      ∃ start, (start, actorId) ∈ (pushes calls).accepted ∧ start ≤ slot ∧
        ∀ e ∈ (pushes calls).accepted, e.1 ≤ slot → e.1 ≤ start) ∧
    ((pushes calls).list.endpointFor slot = .error (.noEndpointForSlot slot) ↔
      ∀ e ∈ (pushes calls).accepted, ¬ e.1 ≤ slot) ∧
    ∀ later : List (Slot × ActorId), (∀ e ∈ later, slot < e.1) →
      (pushes (calls ++ later)).list.endpointFor slot = (pushes calls).list.endpointFor slot := by
  rw [← endpoints_pushes]
  refine ⟨fun e => ?_, fun e => ?_, (pushes calls).list.ascending, fun _ => endpointFor_iff, ?_, ?_⟩
  · rw [endpoints_pushes]
    exact accepted_append_iff
  · rw [endpoints_pushes]
    exact accepted_unchanged_iff
  · rw [endpointFor_eq_error_iff]
    simp only [Nat.not_le]
  · intro later hlater
    obtain ⟨taken, hsubset, hendpoints⟩ := endpoints_pushes_append calls later
    exact endpointFor_of_append hendpoints fun e he => hlater e (hsubset he)

end GearBridges.HistoricalProxy.EndpointList
