import GearBridges.CheckpointLightClient.Monotone
import GearBridges.Lib.BinarySearch

/-!
# CheckpointLightClient.CheckpointFor

Looking up the checkpoint of a slot.  The ring buffer is searched in two slices, each by
binary search, so what is found depends on the order of the checkpoints.  As long as they
rise it is the first one not below the slot, and stays so until it is evicted
(`Extends.checkpoint_eq`).
-/

namespace GearBridges.CheckpointLightClient

open EthereumCommon BinarySearch Transition

variable {P : Primitives}

inductive CheckpointError where
  | outDated
  | notPresent
deriving DecidableEq

/-- The closure `search` of `Checkpoints::checkpoint`. -/
def searchSlice (search : Search) (slice : List (Checkpoint P)) (slot : Slot) :
    Except CheckpointError (Checkpoint P) :=
  match search.run (fun c => compare c.1 slot) slice with
  | .ok index => match slice[index]? with
      | some c => .ok c
      | none => .error .notPresent
  | .error indexNext => match slice[indexNext]? with
      | some c => .ok c
      | none => .error .notPresent

/-- The two searches of `Checkpoints::checkpoint`, in slices that meet after `split` entries. -/
def searchSlices (search : Search) (split : Nat) (entries : List (Checkpoint P)) (slot : Slot) :
    Except CheckpointError (Checkpoint P) :=
  match searchSlice search (entries.take split) slot with
  | .ok c => .ok c
  | .error _ => searchSlice search (entries.drop split) slot

/-- `Checkpoints::checkpoint`; the buffer wraps around after `split` entries. -/
def Checkpoints.checkpoint (cs : Checkpoints P) (search : Search) (split : Nat) (slot : Slot) :
    Except CheckpointError (Checkpoint P) :=
  searchSlices search split cs.entries slot

/-! ## what is found -/

/-- The first checkpoint not below a slot. -/
def covering (entries : List (Checkpoint P)) (slot : Slot) : Option (Checkpoint P) :=
  entries.find? fun c => slot ≤ c.1

theorem covering_eq_getElem? {entries : List (Checkpoint P)} {slot : Slot} {i : Nat}
    (hbelow : ∀ c ∈ entries.take i, c.1 < slot) (hhere : ∀ c, entries[i]? = some c → slot ≤ c.1) :
    covering entries slot = entries[i]? := by
  have hnone : (entries.take i).find? (fun c => slot ≤ c.1) = none := by
    rw [List.find?_eq_none]
    intro c hc
    simpa using hbelow c hc
  unfold covering
  rw [← List.take_append_drop i entries, List.find?_append, hnone, Option.none_or,
    List.take_append_drop]
  cases hget : entries[i]? with
  | none => rw [List.drop_eq_nil_of_le (List.getElem?_eq_none_iff.mp hget), List.find?_nil]
  | some c =>
      obtain ⟨hi, rfl⟩ := List.getElem?_eq_some_iff.mp hget
      rw [List.drop_eq_getElem_cons hi, List.find?_cons_of_pos]
      simpa using hhere _ hget

/-- What a slice is searched for, if it rises. -/
theorem searchSlice_eq {slice : List (Checkpoint P)} (hrising : slice.Pairwise fun a b => a.1 < b.1)
    (search : Search) (slot : Slot) : searchSlice search slice slot =
      match covering slice slot with
      | some c => .ok c
      | none => .error .notPresent := by
  have hcorrect := search.correct (Ordered.of_keys (hrising.imp Nat.le_of_lt) slot)
  unfold searchSlice
  cases hrun : search.run (fun c : Checkpoint P => compare c.1 slot) slice with
  | ok i =>
      rw [hrun] at hcorrect
      obtain ⟨x, hx, heq⟩ := hcorrect
      rw [Nat.compare_eq_eq] at heq
      have hcovering : covering slice slot = slice[i]? := by
        apply covering_eq_getElem?
        · intro c hc
          obtain ⟨j, hj⟩ := List.mem_iff_getElem?.mp hc
          obtain ⟨hjlen, rfl⟩ := List.getElem?_eq_some_iff.mp hj
          obtain ⟨hi, rfl⟩ := List.getElem?_eq_some_iff.mp hx
          rw [List.getElem_take, ← heq]
          rw [List.length_take] at hjlen
          exact List.pairwise_iff_getElem.mp hrising j i (by omega) hi (by omega)
        · intro c hc
          rw [hx] at hc
          cases hc
          exact Nat.le_of_eq heq.symm
      simp only [hcovering]
  | error i =>
      rw [hrun] at hcorrect
      obtain ⟨-, hbelow, habove⟩ := hcorrect
      simp only [Nat.compare_eq_lt, Nat.compare_eq_gt] at hbelow habove
      have hcovering : covering slice slot = slice[i]? := by
        apply covering_eq_getElem? hbelow
        intro c hc
        refine Nat.le_of_lt (habove c (List.mem_iff_getElem?.mpr ⟨0, ?_⟩))
        rw [List.getElem?_drop, Nat.add_zero]
        exact hc
      simp only [hcovering]

/-- The search over both slices of a rising list, wherever it is split. -/
theorem searchSlices_eq {entries : List (Checkpoint P)}
    (hrising : entries.Pairwise fun a b => a.1 < b.1) (search : Search) (split : Nat)
    (slot : Slot) : searchSlices search split entries slot =
      match covering entries slot with
      | some c => .ok c
      | none => .error .notPresent := by
  have hsplit : covering entries slot =
      (covering (entries.take split) slot).or (covering (entries.drop split) slot) := by
    unfold covering
    rw [← List.find?_append, List.take_append_drop]
  unfold searchSlices
  rw [searchSlice_eq (hrising.sublist (List.take_sublist _ _)),
    searchSlice_eq (hrising.sublist (List.drop_sublist _ _)), hsplit]
  cases covering (entries.take split) slot <;> rfl

/-- **What `checkpoint` returns** while the checkpoints rise: the first one not below the slot,
wherever the buffer wraps around. -/
theorem Checkpoints.checkpoint_eq {cs : Checkpoints P} (hcs : cs.Rising) (search : Search)
    (split : Nat) (slot : Slot) : cs.checkpoint search split slot =
      match covering cs.entries slot with
      | some c => .ok c
      | none => .error .notPresent :=
  searchSlices_eq hcs search split slot

/-- An answer is the first checkpoint not below the slot. -/
theorem Checkpoints.covering_of_ok {cs : Checkpoints P} (hcs : cs.Rising) {search : Search}
    {split : Nat} {slot : Slot} {found : Checkpoint P}
    (h : cs.checkpoint search split slot = .ok found) :
    covering cs.entries slot = some found := by
  rw [Checkpoints.checkpoint_eq hcs] at h
  cases hc : covering cs.entries slot with
  | none => simp [hc] at h
  | some c =>
      rw [hc] at h
      cases h
      rfl

/-- The checkpoint that covers a slot: the least one not below it. -/
structure Covers (entries : List (Checkpoint P)) (slot : Slot) (c : Checkpoint P) : Prop where
  mem : c ∈ entries
  above : slot ≤ c.1
  least : ∀ x ∈ entries, slot ≤ x.1 → c.1 ≤ x.1

/-- One slot is one checkpoint of a rising list. -/
theorem eq_of_slot {entries : List (Checkpoint P)}
    (hrising : entries.Pairwise fun a b => a.1 < b.1) {a b : Checkpoint P} (ha : a ∈ entries)
    (hb : b ∈ entries) (h : a.1 = b.1) : a = b := by
  by_contra hne
  have : Std.Symm fun a b : Checkpoint P => a.1 ≠ b.1 := ⟨fun _ _ h => h.symm⟩
  exact (hrising.imp Nat.ne_of_lt).forall ha hb hne h

theorem covers_of_covering {entries : List (Checkpoint P)}
    (hrising : entries.Pairwise fun a b => a.1 < b.1) {slot : Slot} {c : Checkpoint P}
    (h : covering entries slot = some c) : Covers entries slot c := by
  obtain ⟨hc, before, after, rfl, hbefore⟩ := List.find?_eq_some_iff_append.mp h
  rw [decide_eq_true_iff] at hc
  refine ⟨by simp, hc, ?_⟩
  intro x hx hslot
  rw [List.mem_append, List.mem_cons] at hx
  rcases hx with hx | rfl | hx
  · have hbelow := hbefore x hx
    simp only [Bool.not_eq_eq_eq_not, Bool.not_true, decide_eq_false_iff_not] at hbelow
    exact absurd hslot hbelow
  · exact Nat.le_refl _
  · rw [List.pairwise_append, List.pairwise_cons] at hrising
    exact Nat.le_of_lt (hrising.2.1.1 x hx)

theorem covering_eq_some_iff {entries : List (Checkpoint P)}
    (hrising : entries.Pairwise fun a b => a.1 < b.1) {slot : Slot} {c : Checkpoint P} :
    covering entries slot = some c ↔ Covers entries slot c := by
  refine ⟨covers_of_covering hrising, ?_⟩
  intro h
  cases hfound : covering entries slot with
  | none =>
      have hbelow := List.find?_eq_none.mp hfound c h.mem
      rw [decide_eq_true_iff] at hbelow
      exact absurd h.above hbelow
  | some d =>
      have hd := covers_of_covering hrising hfound
      have hslot : d.1 = c.1 := Nat.le_antisymm (hd.least c h.mem h.above) (h.least d hd.mem hd.above)
      rw [eq_of_slot hrising hd.mem h.mem hslot]

theorem covering_eq_none_iff {entries : List (Checkpoint P)} {slot : Slot} :
    covering entries slot = none ↔ ∀ c ∈ entries, c.1 < slot := by
  unfold covering
  simp only [List.find?_eq_none, decide_eq_true_eq, Nat.not_le]

/-- A checkpoint that covers a slot still does when older ones are gone. -/
theorem Covers.drop {entries : List (Checkpoint P)} {slot : Slot} {c : Checkpoint P}
    (h : Covers entries slot c) {dropped : Nat} (hkept : c ∈ entries.drop dropped) :
    Covers (entries.drop dropped) slot c :=
  ⟨hkept, h.above, fun x hx => h.least x (List.mem_of_mem_drop hx)⟩

/-- And when newer ones are added. -/
theorem Covers.append {entries pushed : List (Checkpoint P)} {slot : Slot} {c : Checkpoint P}
    (h : Covers entries slot c) (hrising : (entries ++ pushed).Pairwise fun a b => a.1 < b.1) :
    Covers (entries ++ pushed) slot c := by
  refine ⟨List.mem_append_left _ h.mem, h.above, ?_⟩
  intro x hx hslot
  rcases List.mem_append.mp hx with hx | hx
  · exact h.least x hx hslot
  · exact Nat.le_of_lt ((List.pairwise_append.mp hrising).2.2 c h.mem x hx)

/-- Nor do checkpoints below the slot matter. -/
theorem Covers.of_below {entries others : List (Checkpoint P)} {slot : Slot} {c : Checkpoint P}
    (h : Covers entries slot c) (hc : c ∈ others) (hothers : ∀ x ∈ others, x ∈ entries ∨ x.1 < slot) :
    Covers others slot c := by
  refine ⟨hc, h.above, ?_⟩
  intro x hx hslot
  cases hothers x hx with
  | inl hx => exact h.least x hx hslot
  | inr hlt => exact absurd hslot (Nat.not_le.mpr hlt)

/-! ## pushing more checkpoints -/

/-- Checkpoints pushed in rising order behind others, the oldest of which may be gone. -/
def Extends (cs cs' : Checkpoints P) : Prop :=
  ∃ pushed dropped, cs'.entries = (cs.entries ++ pushed).drop dropped ∧
    (cs.entries ++ pushed).Pairwise fun a b => a.1 < b.1

theorem Extends.refl {cs : Checkpoints P} (hcs : cs.Rising) : Extends cs cs := by
  refine ⟨[], 0, ?_, ?_⟩
  · rw [List.append_nil, List.drop_zero]
  · rw [List.append_nil]
    exact hcs

theorem Extends.push {cs cs' : Checkpoints P} (h : Extends cs cs') {c : Checkpoint P}
    (hc : cs'.last.1 < c.1) : Extends cs (cs'.push c) := by
  obtain ⟨pushed, dropped, hentries, hrising⟩ := h
  have hdropped : dropped < (cs.entries ++ pushed).length := by
    by_contra hge
    rw [List.drop_eq_nil_of_le (Nat.not_lt.mp hge)] at hentries
    exact cs'.nonempty hentries
  have hne : cs.entries ++ pushed ≠ [] := List.length_pos_iff.mp (Nat.zero_lt_of_lt hdropped)
  have hlast : cs'.last = (cs.entries ++ pushed).getLast hne := by
    unfold Checkpoints.last
    simp only [hentries]
    exact List.getLast_drop _
  refine ⟨pushed ++ [c], dropped + (cs'.entries.length + 1 - storedCheckpointsCount), ?_, ?_⟩
  · show pushBack storedCheckpointsCount cs'.entries c = _
    unfold pushBack
    rw [← List.drop_drop, ← List.append_assoc, List.drop_append_of_le_length (Nat.le_of_lt hdropped),
      ← hentries]
  · rw [← List.append_assoc, List.pairwise_append]
    refine ⟨hrising, List.pairwise_singleton _ _, ?_⟩
    intro x hx y hy
    rw [List.mem_singleton.mp hy]
    have : Std.Refl fun a b : Checkpoint P => a.1 ≤ b.1 := ⟨fun _ => Nat.le_refl _⟩
    have hle := (hrising.imp Nat.le_of_lt).rel_getLast hx
    rw [← hlast] at hle
    exact Nat.lt_of_le_of_lt hle hc

/-- Checkpoints collected downwards above the newest one are pushed in rising order. -/
theorem Extends.pushAll {cs onto above : Checkpoints P} (h : Extends cs onto)
    (hfalling : above.entries.Pairwise fun a b => b.1 < a.1)
    (habove : ∀ c ∈ above.entries, onto.last.1 < c.1) : Extends cs (onto.pushAll above) := by
  obtain ⟨entries, nonempty⟩ := above
  unfold Checkpoints.pushAll
  simp only at hfalling habove ⊢
  clear nonempty
  induction entries with
  | nil => exact h
  | cons c entries ih =>
      rw [List.pairwise_cons] at hfalling
      rw [List.foldr_cons]
      refine (ih hfalling.2 fun x hx => habove x (List.mem_cons_of_mem _ hx)).push ?_
      -- what is pushed last before `c` is below it, or nothing was pushed
      cases entries with
      | nil => exact habove c List.mem_cons_self
      | cons d entries =>
          rw [List.foldr_cons, Checkpoints.last_push]
          exact hfalling.1 d List.mem_cons_self

theorem Extends.processHeaders {cs : Checkpoints P} {s : State P} (h : Extends cs s.checkpoints)
    {r : ReplayBackState P} (hr : r.Falling) {popped : List (Header P)}
    (holder : parentsOlder s.checkpoints.last r.lastHeader popped = true) :
    Extends cs (processHeaders s r popped).1.checkpoints := by
  rcases processHeaders_cases s r popped with ⟨hjoins, heq⟩ | ⟨-, heq⟩
  · rw [heq]
    exact h.pushAll (replayHeaders_falling hr (descends_of_parentsOlder holder)).falling
      (replayHeaders_above hr holder hjoins)
  · rw [heq]
    exact h

/-- **One step in order** pushes in rising order, if anything. -/
theorem Extends.step {cs : Checkpoints P} {w w' : World P} {a : Action P}
    (h : Extends cs w.state.checkpoints) (hw : Ordered w.state) (hok : InOrder w a)
    (hstep : step w a = some w') : Extends cs w'.state.checkpoints := by
  unfold InOrder inOrder at hok
  cases step_effect hstep with
  | suspended p hsnapshot => exact h
  | unchanged pending hpending => exact h
  | updated p f c hp hcall hverify =>
      obtain ⟨rfl, -, -⟩ := verify_finalized hverify
      simp only [hp, hverify, Except.isOk, Except.toBool, hcall, Bool.not_true, Bool.false_or,
        decide_eq_true_eq] at hok
      refine h.push ?_
      rw [hw.newest]
      exact hok
  | started p f c headers hp hcall hverify =>
      obtain ⟨hf, -, -⟩ := verify_finalized hverify
      cases hf
      simp only [hp, hverify, Except.isOk, Except.toBool, hcall, Bool.not_true,
        Bool.false_or] at hok
      exact Extends.processHeaders (s := { w.state with replayBack := some _ }) h (.new _ _) hok
  | replayed r hr =>
      simp only [hr] at hok
      exact h.processHeaders (hw.replay r hr) hok

theorem extends_of_reachable {w w' : World P} (hw : Ordered w.state)
    (h : Reachable step InOrder (· = w) w') : Extends w.state.checkpoints w'.state.checkpoints := by
  refine (Reachable.invariant (I := fun w' => Ordered w'.state ∧
    Extends w.state.checkpoints w'.state.checkpoints) ?_ ?_ h).2
  · rintro s rfl
    exact ⟨hw, .refl hw.rising⟩
  · rintro s a s' ⟨hs, hextends⟩ hok hstep
    exact ⟨(hs.step hok hstep).1, hextends.step hs hok hstep⟩

/-- **The covering checkpoint stays the covering one** while it is stored. -/
theorem Extends.covering_eq {cs cs' : Checkpoints P} (h : Extends cs cs') {slot : Slot}
    {c : Checkpoint P} (hc : covering cs.entries slot = some c) (hkept : c ∈ cs'.entries) :
    covering cs'.entries slot = some c := by
  obtain ⟨pushed, dropped, hentries, hrising⟩ := h
  have hcovers := (covering_eq_some_iff (List.pairwise_append.mp hrising).1).mp hc
  rw [hentries] at hkept ⊢
  exact (covering_eq_some_iff hrising.drop).mpr ((hcovers.append hrising).drop hkept)

/-! ## a ring of any size -/

/-- Pushing a list leaves the end of everything that was pushed. -/
theorem foldl_pushBack {α : Type} {n : Nat} {l pushed : List α}
    (h : l.length ≤ n ∨ pushed ≠ []) : pushed.foldl (pushBack n) l =
      (l ++ pushed).drop (l.length + pushed.length - n) := by
  induction pushed generalizing l with
  | nil =>
      have hzero : l.length + ([] : List α).length - n = 0 := by
        rw [List.length_nil]
        have hfits : l.length ≤ n := by simpa using h
        omega
      rw [hzero, List.append_nil, List.drop_zero, List.foldl_nil]
  | cons a pushed ih =>
      have hlength : (pushBack n l a).length = l.length + 1 - (l.length + 1 - n) := by
        rw [pushBack, List.length_drop, List.length_append, List.length_singleton]
      have hle : l.length + 1 - n ≤ (l ++ [a]).length := by
        rw [List.length_append, List.length_singleton]
        omega
      rw [List.foldl_cons, ih (.inl (by omega)), hlength, pushBack,
        ← List.drop_append_of_le_length hle, List.drop_drop, List.append_assoc,
        List.singleton_append, List.length_cons]
      congr 1
      omega

theorem Checkpoints.entries_push (cs : Checkpoints P) (c : Checkpoint P) :
    (cs.push c).entries = pushBack storedCheckpointsCount cs.entries c := rfl

theorem Checkpoints.entries_foldr_push (onto : Checkpoints P) (entries : List (Checkpoint P)) :
    (entries.foldr (fun c onto => onto.push c) onto).entries =
      entries.reverse.foldl (pushBack storedCheckpointsCount) onto.entries := by
  induction entries with
  | nil => rfl
  | cons c entries ih =>
      rw [List.foldr_cons, List.reverse_cons, List.foldl_append, ← ih, List.foldl_cons,
        List.foldl_nil, entries_push]

/-- The buffer behind the checkpoints of a replay-back. -/
theorem Checkpoints.entries_pushAll (onto above : Checkpoints P) :
    (onto.pushAll above).entries = (onto.entries ++ above.entries.reverse).drop
      (onto.entries.length + above.entries.length - storedCheckpointsCount) := by
  have hne : above.entries.reverse ≠ [] := List.reverse_ne_nil_iff.mpr above.nonempty
  unfold pushAll
  rw [entries_foldr_push, foldl_pushBack (.inr hne), List.length_reverse]

/-- `Checkpoints<N>`: the last `n` entries pushed, the newest one at the end. -/
structure Ring (P : Primitives) (n : Nat) where
  entries : List (Checkpoint P)
  fits : entries.length ≤ n

namespace Ring

variable {n : Nat}

/-- `Checkpoints::new`. -/
def new : Ring P n := ⟨[], Nat.zero_le n⟩

/-- `Checkpoints::push`. -/
def push (ring : Ring P n) (c : Checkpoint P) : Ring P n where
  entries := pushBack n ring.entries c
  fits := by
    unfold pushBack
    rw [List.length_drop, List.length_append, List.length_singleton]
    omega

/-- `Checkpoints::checkpoint`. -/
def checkpoint (ring : Ring P n) (search : Search) (split : Nat) (slot : Slot) :
    Except CheckpointError (Checkpoint P) :=
  searchSlices search split ring.entries slot

def pushes (ring : Ring P n) (pushed : List (Checkpoint P)) : Ring P n := pushed.foldl push ring

theorem entries_pushes (ring : Ring P n) (pushed : List (Checkpoint P)) :
    (ring.pushes pushed).entries = pushed.foldl (pushBack n) ring.entries := by
  induction pushed generalizing ring with
  | nil => rfl
  | cons c pushed ih => exact ih (ring.push c)

theorem entries_pushes_new (pushed : List (Checkpoint P)) :
    ((new : Ring P n).pushes pushed).entries = pushed.drop (pushed.length - n) := by
  rw [entries_pushes, foldl_pushBack (.inl (Nat.zero_le n))]
  simp [new]

end Ring

/-- **The lookup is exact** in a ring of any size, pushed to any number of times, wherever it
wraps around: the least of the last entries not below the slot, and no error but for want
of one.  The answer stays while its entry does. -/
theorem checkpoint_exact (search : Search) {n : Nat} {pushed : List (Checkpoint P)}
    (hrising : pushed.Pairwise fun a b => a.1 < b.1) (split : Nat) (slot : Slot) :
    (∀ c, ((Ring.new : Ring P n).pushes pushed).checkpoint search split slot = .ok c ↔
      Covers (pushed.drop (pushed.length - n)) slot c) ∧
    (((Ring.new : Ring P n).pushes pushed).checkpoint search split slot = .error .notPresent ↔
      ∀ c ∈ pushed.drop (pushed.length - n), c.1 < slot) ∧
    ∀ c, ((Ring.new : Ring P n).pushes pushed).checkpoint search split slot = .ok c →
      ∀ more split', (pushed ++ more).Pairwise (fun a b => a.1 < b.1) →
        c ∈ ((Ring.new : Ring P n).pushes (pushed ++ more)).entries →
        ((Ring.new : Ring P n).pushes (pushed ++ more)).checkpoint search split' slot = .ok c := by
  have hlookup : ∀ (l : List (Checkpoint P)), l.Pairwise (fun a b => a.1 < b.1) → ∀ split,
      ((Ring.new : Ring P n).pushes l).checkpoint search split slot =
        match covering (l.drop (l.length - n)) slot with
        | some c => .ok c
        | none => .error .notPresent := by
    intro l hl split
    unfold Ring.checkpoint
    rw [Ring.entries_pushes_new, searchSlices_eq hl.drop]
  have hok : ∀ (l : List (Checkpoint P)), l.Pairwise (fun a b => a.1 < b.1) → ∀ split c,
      ((Ring.new : Ring P n).pushes l).checkpoint search split slot = .ok c ↔
        Covers (l.drop (l.length - n)) slot c := by
    intro l hl split c
    rw [hlookup l hl, ← covering_eq_some_iff hl.drop]
    cases covering (l.drop (l.length - n)) slot <;> simp
  refine ⟨hok pushed hrising split, ?_, ?_⟩
  · rw [hlookup pushed hrising, ← covering_eq_none_iff]
    cases covering (pushed.drop (pushed.length - n)) slot <;> simp
  · intro c hc more split' hmore hkept
    rw [Ring.entries_pushes_new] at hkept
    have hcovers := (hok pushed hrising split c).mp hc
    -- what is left later is what was left before with the new entries, less the oldest
    have hsplit : (pushed ++ more).drop ((pushed ++ more).length - n) =
        (pushed.drop (pushed.length - n) ++ more).drop
          ((pushed ++ more).length - n - (pushed.length - n)) := by
      rw [← List.drop_append_of_le_length (Nat.sub_le _ _), List.drop_drop,
        Nat.add_sub_cancel' (by rw [List.length_append]; omega)]
    have hlast : (pushed.drop (pushed.length - n) ++ more).Pairwise fun a b => a.1 < b.1 := by
      rw [← List.drop_append_of_le_length (Nat.sub_le _ _)]
      exact hmore.drop
    rw [hsplit] at hkept
    rw [hok _ hmore, hsplit]
    exact (hcovers.append hlast).drop hkept

/-- A ring of two entries after three pushes. -/
theorem checkpoint_exact_ledger :
    let pushed := [1, 2, 3].map fun n => ledgerPrimitives.checkpoint (Digest.ledgerBlock n)
    ((Ring.new : Ring ledgerPrimitives 2).pushes pushed).checkpoint stdSearch 1 0 =
      .ok (ledgerPrimitives.checkpoint (Digest.ledgerBlock 2)) :=
  ((checkpoint_exact stdSearch (by decide +kernel) 1 0).1 _).mpr
    ⟨by decide +kernel, Nat.zero_le _, by decide +kernel⟩

end GearBridges.CheckpointLightClient
