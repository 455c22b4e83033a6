import GearBridges.GearRpcClient.AuthoritySetSearch
import Mathlib.Data.Nat.Find

/-!
# GearRpcClient.EraFirstBlock

The search for the first block of an era: from any block of the era it goes back until it is
before the era, and then halves the bracket.  Only the middle of the bracket is ever looked at.
Where the search for a block of the set has landed on the first block of the era itself, that
block is the upper end of the bracket for good, and the loop does not end
(`findEraFirstBlock_iff`).
-/

namespace GearBridges.GearRpcClient

open Loop

/-! ## find_era_first_block -/

/-- One turn of the first loop. -/
def backTurn (c : Chain) (authoritySetId prevSetBlock : Nat) : Turn Nat Nat :=
  if c.authoritySetId prevSetBlock < authoritySetId then .done prevSetBlock
  else .again (prevSetBlock - approxSessionDurationInBlocks)

/-- One turn of the second loop, with the block of the set and the one before the set.  The
parent of a block is the block before it. -/
def midTurn (c : Chain) (authoritySetId : Nat) : Nat × Nat → Turn (Nat × Nat) Nat
  | (currentSetBlock, prevSetBlock) =>
      match checkedU32 (currentSetBlock + prevSetBlock) with
      | none => .panic
      | some sum =>
          let midBlock := sum / 2
          if c.authoritySetId midBlock = authoritySetId then
            if c.authoritySetId (midBlock - 1) + 1 = authoritySetId then .done midBlock
            else .again (midBlock, prevSetBlock)
          else .again (currentSetBlock, midBlock)

/-- `find_era_first_block`, each of its loops for a number of turns. -/
def findEraFirstBlock (c : Chain) (authoritySetId turns : Nat) : Outcome Nat :=
  (searchForAuthoritySetBlock c authoritySetId turns).bind fun currentSetBlock =>
    (run (backTurn c authoritySetId) turns
      (currentSetBlock - approxSessionDurationInBlocks)).bind fun prevSetBlock =>
        run (midTurn c authoritySetId) turns (currentSetBlock, prevSetBlock)

/-- The first block of the era of a set. -/
def IsFirstBlock (c : Chain) (id b : Nat) : Prop :=
  1 ≤ b ∧ b ≤ c.height ∧ c.authoritySetId b = id ∧ c.authoritySetId (b - 1) + 1 = id

/-- The search ends with the one first block of the era. -/
def FindsFirst (c : Chain) (id : Nat) : Prop :=
  ∃ b, (∃ turns, ∀ more, turns ≤ more → findEraFirstBlock c id more = .done b) ∧
    IsFirstBlock c id b ∧ ∀ b', IsFirstBlock c id b' → b' = b

/-! ## eras -/

/-- The blocks of a set. -/
structure Era (c : Chain) (id first last : Nat) : Prop where
  le : first ≤ last
  last_le : last ≤ c.height
  mem : ∀ n, n ≤ c.height → (c.authoritySetId n = id ↔ first ≤ n ∧ n ≤ last)

variable {c : Chain} {id first last : Nat}

namespace Era

theorem setId_first (h : Era c id first last) : c.authoritySetId first = id :=
  (h.mem first (Nat.le_trans h.le h.last_le)).mpr ⟨Nat.le_refl _, h.le⟩

theorem lt_iff (h : Era c id first last) {n : Nat} (hn : n ≤ c.height) :
    c.authoritySetId n < id ↔ n < first := by
  have hfirst := h.setId_first
  have hmem := h.mem n hn
  constructor
  · intro hlt
    exact Chain.lt_of_setId_lt hn (hfirst.symm ▸ hlt)
  · intro hlt
    have := c.mono (Nat.le_of_lt hlt) (Nat.le_trans h.le h.last_le)
    omega

theorem gt_iff (h : Era c id first last) {n : Nat} (hn : n ≤ c.height) :
    id < c.authoritySetId n ↔ last < n := by
  have hmem := h.mem n hn
  have hlt := h.lt_iff hn
  have hle := h.le
  omega

theorem pos (h : Era c id first last) (h0 : c.authoritySetId 0 < id) : 1 ≤ first :=
  (h.lt_iff (Nat.zero_le _)).mp h0

theorem isFirstBlock (h : Era c id first last) (h0 : c.authoritySetId 0 < id) :
    IsFirstBlock c id first := by
  have hpos := h.pos h0
  have hle := Nat.le_trans h.le h.last_le
  have hbefore := (h.lt_iff (n := first - 1) (by omega)).mpr (by omega)
  have hstep := c.succ_le (first - 1) (by omega)
  rw [Nat.sub_add_cancel hpos, h.setId_first] at hstep
  exact ⟨hpos, hle, h.setId_first, by omega⟩

theorem eq_of_isFirstBlock (h : Era c id first last) {b : Nat} (hb : IsFirstBlock c id b) :
    b = first := by
  obtain ⟨hpos, hle, hset, hbefore⟩ := hb
  have hmem := (h.mem b hle).mp hset
  have hlt := (h.lt_iff (n := b - 1) (by omega)).mp (by omega)
  omega

end Era

/-- A set that is not the first one and has come has an era. -/
theorem exists_era (h0 : c.authoritySetId 0 < id) (hheight : id ≤ c.authoritySetId c.height) :
    ∃ first last, Era c id first last := by
  have hfirst : ∃ n, id ≤ c.authoritySetId n := ⟨c.height, hheight⟩
  have hafter : ∃ n, c.height < n ∨ id < c.authoritySetId n := ⟨c.height + 1, .inl (by omega)⟩
  have hle : Nat.find hfirst ≤ c.height := Nat.find_min' hfirst hheight
  have hpos : 0 < Nat.find hfirst := by
    rw [Nat.find_pos]
    omega
  have hbelow : ∀ n, n < Nat.find hfirst → c.authoritySetId n < id :=
    fun n hn => Nat.not_le.mp (Nat.find_min hfirst hn)
  have hset : c.authoritySetId (Nat.find hfirst) = id := by
    have hspec := Nat.find_spec hfirst
    have hbefore := hbelow (Nat.find hfirst - 1) (by omega)
    have hstep := c.succ_le (Nat.find hfirst - 1) (by omega)
    rw [Nat.sub_add_cancel hpos] at hstep
    omega
  have hlast : ∀ n, n < Nat.find hafter → n ≤ c.height ∧ c.authoritySetId n ≤ id := by
    intro n hn
    have := Nat.find_min hafter hn
    omega
  have hlt : Nat.find hfirst < Nat.find hafter := by
    by_contra hge
    rcases Nat.find_spec hafter with hout | hgt
    · omega
    · have := c.mono (Nat.not_lt.mp hge) hle
      omega
  refine ⟨Nat.find hfirst, Nat.find hafter - 1, by omega, (hlast _ (by omega)).1, ?_⟩
  intro n hn
  constructor
  · intro heq
    constructor
    · by_contra hlt'
      have := hbelow n (by omega)
      omega
    · by_contra hge
      have hspec := (Nat.find_spec hafter).resolve_left (by omega)
      have := c.mono (n := Nat.find hafter) (m := n) (by omega) hn
      omega
  · rintro ⟨hge, hle'⟩
    have hupper := (hlast n (by omega)).2
    have hlower := c.mono hge hn
    omega

/-! ## where the search lands -/

/-- The block that a turn of the search looks at. -/
def State.probe : State → Nat
  | .searchBack latestBn step => latestBn - step
  | .binarySearch lowerBn higherBn => (lowerBn + higherBn) / 2

/-- Where the search goes on when that block is of a later set. -/
def State.later : State → State
  | .searchBack latestBn step => .searchBack (latestBn - step) (step * 2)
  | .binarySearch lowerBn higherBn => .binarySearch lowerBn ((lowerBn + higherBn) / 2)

/-- Where the search goes on when that block is of an earlier set. -/
def State.earlier : State → State
  | .searchBack latestBn step => .binarySearch (latestBn - step) latestBn
  | .binarySearch lowerBn higherBn => .binarySearch ((lowerBn + higherBn) / 2) higherBn

/-- Of the blocks looked at one after the other, `first` is the first one in the range from
`first` to `last`. -/
inductive MeetsFirst (first last : Nat) : State → Prop where
  | here {s : State} : s.probe = first → MeetsFirst first last s
  | later {s : State} : last < s.probe → MeetsFirst first last s.later → MeetsFirst first last s
  | earlier {s : State} : s.probe < first → MeetsFirst first last s.earlier →
      MeetsFirst first last s

/-- The era begins with the block that is met first: with the latest block, or else, the era
being over, with the first of the blocks 1000, 3000, 7000, ... below it and of the middles of the
bracket after that to lie in the era. -/
def LandsOnFirst (c : Chain) (id : Nat) : Prop :=
  ∃ first last, Era c id first last ∧ (first = c.height ∨
    last < c.height ∧
      MeetsFirst first last (.searchBack c.height approxSessionDurationInBlocks))

theorem searchTurn_eq {s : State} (h0 : c.authoritySetId 0 ≤ id) (h : Searching c id s) :
    searchTurn c id s = if c.authoritySetId s.probe = id then .done s.probe
      else if id < c.authoritySetId s.probe then .again s.later else .again s.earlier := by
  have hheight := c.height_lt
  cases s with
  | searchBack latestBn step =>
      obtain ⟨hle, hlatest, hstep, hwalked⟩ := h
      unfold approxSessionDurationInBlocks at hwalked
      show searchTurn c id (.searchBack latestBn step) =
        if c.authoritySetId (latestBn - step) = id then .done (latestBn - step)
        else if id < c.authoritySetId (latestBn - step) then
          .again (.searchBack (latestBn - step) (step * 2))
        else .again (.binarySearch (latestBn - step) latestBn)
      simp only [searchTurn]
      by_cases hgt : id < c.authoritySetId (latestBn - step)
      · have hroom : step < latestBn := by
          by_contra hge
          rw [Nat.sub_eq_zero_of_le (Nat.not_lt.mp hge)] at hgt
          omega
        rw [checkedU32_of_lt (by omega)]
      · simp only [if_neg hgt]
  | binarySearch lowerBn higherBn =>
      obtain ⟨hlt, hle, -, -⟩ := h
      simp only [searchTurn, checkedU32_of_lt (show lowerBn + higherBn < 2 ^ 32 by omega)]
      rfl

/-- What is kept from turn to turn, in terms of the block looked at. -/
theorem Searching.turn {s : State} (h0 : c.authoritySetId 0 ≤ id) (h : Searching c id s) :
    s.probe ≤ c.height ∧ (id < c.authoritySetId s.probe → Searching c id s.later) ∧
      (c.authoritySetId s.probe < id → Searching c id s.earlier) := by
  have hturn : (∃ s', searchTurn c id s = .again s' ∧ Searching c id s' ∧
      s'.measure c < s.measure c) ∨
      ∃ b, searchTurn c id s = .done b ∧ b ≤ c.height ∧ c.authoritySetId b = id := by
    cases s with
    | searchBack latestBn step => exact searchBack_turn h0 h
    | binarySearch lowerBn higherBn => exact binarySearch_turn h
  refine ⟨?_, ?_, ?_⟩
  · cases s with
    | searchBack latestBn step =>
        obtain ⟨hle, -, -, -⟩ := h
        simp only [State.probe]
        omega
    | binarySearch lowerBn higherBn =>
        obtain ⟨hlt, hle, -, -⟩ := h
        simp only [State.probe]
        omega
  · intro hgt
    rw [searchTurn_eq h0 h, if_neg (by omega), if_pos hgt] at hturn
    rcases hturn with ⟨s', hs', hsearching, -⟩ | ⟨b, hb, -⟩
    · cases hs'
      exact hsearching
    · cases hb
  · intro hlt
    rw [searchTurn_eq h0 h, if_neg (by omega), if_neg (by omega)] at hturn
    rcases hturn with ⟨s', hs', hsearching, -⟩ | ⟨b, hb, -⟩
    · cases hs'
      exact hsearching
    · cases hb

/-- The search returns the first block of the era if it meets that block first. -/
theorem returns_of_meetsFirst (hera : Era c id first last) (h0 : c.authoritySetId 0 ≤ id)
    {s : State} (hs : Searching c id s) (h : MeetsFirst first last s) :
    Returns (searchTurn c id) s first := by
  induction h with
  | here hprobe =>
      apply returns_of_done
      rw [searchTurn_eq h0 hs, hprobe, if_pos hera.setId_first]
  | later hprobe _ ih =>
      obtain ⟨hle, hlater, -⟩ := hs.turn h0
      have hgt := (hera.gt_iff hle).mpr hprobe
      refine (ih (hlater hgt)).of_again ?_
      rw [searchTurn_eq h0 hs, if_neg (by omega), if_pos hgt]
  | earlier hprobe _ ih =>
      obtain ⟨hle, -, hearlier⟩ := hs.turn h0
      have hlt := (hera.lt_iff hle).mpr hprobe
      refine (ih (hearlier hlt)).of_again ?_
      rw [searchTurn_eq h0 hs, if_neg (by omega), if_neg (by omega)]

theorem meetsFirst_of_run (hera : Era c id first last) (h0 : c.authoritySetId 0 ≤ id) {n : Nat}
    {s : State} (hs : Searching c id s) (h : run (searchTurn c id) n s = .done first) :
    MeetsFirst first last s := by
  induction n generalizing s with
  | zero => cases h
  | succ n ih =>
      obtain ⟨hle, hlater, hearlier⟩ := hs.turn h0
      rw [run, searchTurn_eq h0 hs] at h
      by_cases heq : c.authoritySetId s.probe = id
      · rw [if_pos heq] at h
        cases h
        exact .here rfl
      · rw [if_neg heq] at h
        by_cases hgt : id < c.authoritySetId s.probe
        · rw [if_pos hgt] at h
          exact .later ((hera.gt_iff hle).mp hgt) (ih (hlater hgt) h)
        · rw [if_neg hgt] at h
          have hlt : c.authoritySetId s.probe < id := by omega
          exact .earlier ((hera.lt_iff hle).mp hlt) (ih (hearlier hlt) h)

/-- The search lands on the first block of the era exactly where that is met first. -/
theorem lands_first_iff (hera : Era c id first last) (h0 : c.authoritySetId 0 < id)
    (hheight : id ≤ c.authoritySetId c.height) :
    Lands c id first ↔ first = c.height ∨ last < c.height ∧
      MeetsFirst first last (.searchBack c.height approxSessionDurationInBlocks) := by
  have hle := Nat.le_of_lt h0
  unfold Lands searchForAuthoritySetBlock
  by_cases hlatest : c.authoritySetId c.height = id
  · have hmem := (hera.mem c.height (Nat.le_refl _)).mp hlatest
    simp only [if_pos hlatest]
    constructor
    · rintro ⟨turns, hturns⟩
      have := hturns turns (Nat.le_refl _)
      exact .inl (Outcome.done.inj this).symm
    · rintro (rfl | ⟨hlt, -⟩)
      · exact ⟨0, fun _ _ => rfl⟩
      · omega
  · have hs := searching_start hheight hlatest
    have hlast := (hera.gt_iff (Nat.le_refl _)).mp (Nat.lt_of_le_of_ne hheight (Ne.symm hlatest))
    simp only [if_neg hlatest]
    constructor
    · rintro ⟨turns, hturns⟩
      exact .inr ⟨hlast, meetsFirst_of_run hera hle hs (hturns turns (Nat.le_refl _))⟩
    · rintro (rfl | ⟨-, hmeets⟩)
      · exact absurd hera.setId_first hlatest
      · exact (returns_of_meetsFirst hera hle hs hmeets).exists_le

/-! ## the two loops -/

/-- The first loop ends before the era. -/
theorem returns_backTurn (h0 : c.authoritySetId 0 < id) (start : Nat) :
    ∃ p, Returns (backTurn c id) start p ∧ p ≤ start ∧ c.authoritySetId p < id := by
  refine returns_of_measure (fun prev => prev ≤ start) (fun prev => prev) _ ?_ (Nat.le_refl _)
  intro prev hprev
  rw [backTurn]
  by_cases hlt : c.authoritySetId prev < id
  · exact .inr ⟨prev, if_pos hlt, hprev, hlt⟩
  · rw [if_neg hlt]
    have hpos : 0 < prev := by
      by_contra hzero
      obtain rfl : prev = 0 := by omega
      exact hlt h0
    refine .inl ⟨_, rfl, ?_, ?_⟩
    · omega
    · simp only [approxSessionDurationInBlocks]
      omega

/-- A bracket with the first block of the era inside, or at its upper end. -/
def Bracket (c : Chain) (first last : Nat) (s : Nat × Nat) : Prop :=
  s.2 < first ∧ first ≤ s.1 ∧ s.1 ≤ last ∧ last ≤ c.height

/-- A turn of the second loop. -/
theorem midTurn_eq (hera : Era c id first last) (h0 : c.authoritySetId 0 < id) {s : Nat × Nat}
    (h : Bracket c first last s) : midTurn c id s =
      if (s.1 + s.2) / 2 = first then .done first
      else if first < (s.1 + s.2) / 2 then .again ((s.1 + s.2) / 2, s.2)
      else .again (s.1, (s.1 + s.2) / 2) := by
  obtain ⟨current, prev⟩ := s
  obtain ⟨hprev, hcurrent, hlast, hle⟩ := h
  simp only at hprev hcurrent hlast ⊢
  have hheight := c.height_lt
  have hmem := hera.mem ((current + prev) / 2) (by omega)
  simp only [midTurn, checkedU32_of_lt (show current + prev < 2 ^ 32 by omega)]
  by_cases heq : (current + prev) / 2 = first
  · obtain ⟨-, -, hset, hbefore⟩ := hera.isFirstBlock h0
    rw [heq, if_pos hset, if_pos hbefore, if_pos rfl]
  · rw [if_neg heq]
    by_cases hlt : first < (current + prev) / 2
    · -- the block before the middle is of the era as well
      have hbefore := (hera.mem ((current + prev) / 2 - 1) (by omega)).mpr (by omega)
      rw [if_pos (hmem.mpr (by omega)), if_neg (by omega), if_pos hlt]
    · rw [if_neg hlt, if_neg (by omega)]

/-- With the first block of the era inside the bracket the second loop finds it. -/
theorem returns_midTurn (hera : Era c id first last) (h0 : c.authoritySetId 0 < id) {s : Nat × Nat}
    (h : Bracket c first last s) (hinside : first < s.1) : Returns (midTurn c id) s first := by
  have hfound : ∃ b, Returns (midTurn c id) s b ∧ b = first := by
    refine returns_of_measure (fun s => Bracket c first last s ∧ first < s.1)
      (fun s => s.1 - s.2) _ ?_ ⟨h, hinside⟩
    rintro ⟨current, prev⟩ ⟨hs, hlt⟩
    rw [midTurn_eq hera h0 hs]
    obtain ⟨hprev, hcurrent, hlast, hle⟩ := hs
    simp only at hprev hcurrent hlast hlt ⊢
    by_cases heq : (current + prev) / 2 = first
    · exact .inr ⟨first, if_pos heq, rfl⟩
    · rw [if_neg heq]
      by_cases hgt : first < (current + prev) / 2
      · rw [if_pos hgt]
        have hnext : Bracket c first last ((current + prev) / 2, prev) :=
          ⟨hprev, Nat.le_of_lt hgt, by simp only; omega, hle⟩
        exact .inl ⟨_, rfl, ⟨hnext, hgt⟩, by simp only; omega⟩
      · rw [if_neg hgt]
        have hnext : Bracket c first last (current, (current + prev) / 2) :=
          ⟨by simp only; omega, hcurrent, hlast, hle⟩
        exact .inl ⟨_, rfl, ⟨hnext, hlt⟩, by simp only; omega⟩
  obtain ⟨b, hreturns, rfl⟩ := hfound
  exact hreturns

/-- With the first block of the era at the upper end the second loop does not end. -/
theorem running_midTurn (hera : Era c id first last) (h0 : c.authoritySetId 0 < id) {prev : Nat}
    (hprev : prev < first) (turns : Nat) : run (midTurn c id) turns (first, prev) = .running := by
  refine running_of_invariant (fun s => Bracket c first last s ∧ s.1 = first) ?_
    ⟨⟨hprev, Nat.le_refl _, hera.le, hera.last_le⟩, rfl⟩ turns
  rintro ⟨current, prev⟩ ⟨hs, rfl⟩
  rw [midTurn_eq hera h0 hs]
  obtain ⟨hprev, hcurrent, hlast, hle⟩ := hs
  simp only at hprev ⊢
  rw [if_neg (by omega), if_neg (by omega)]
  exact ⟨_, rfl, ⟨by simp only; omega, Nat.le_refl _, hlast, hle⟩, rfl⟩

/-! ## the whole search -/

/-- Where the search lands behind the first block of the era, that block is found. -/
theorem findEraFirstBlock_done (hera : Era c id first last) (h0 : c.authoritySetId 0 < id) {b : Nat}
    (hlands : Lands c id b) (hlt : first < b) (hle : b ≤ last) :
    ∃ turns, ∀ more, turns ≤ more → findEraFirstBlock c id more = .done first := by
  obtain ⟨prev, hback, hprev, hbefore⟩ := returns_backTurn h0 (b - approxSessionDurationInBlocks)
  have hlast := hera.last_le
  have hbracket : Bracket c first last (b, prev) :=
    ⟨(hera.lt_iff (by omega)).mp hbefore, Nat.le_of_lt hlt, hle, hlast⟩
  obtain ⟨n₁, hsearch⟩ := hlands
  obtain ⟨n₂, hback⟩ := hback.exists_le
  obtain ⟨n₃, hmid⟩ := (returns_midTurn hera h0 hbracket hlt).exists_le
  refine ⟨max n₁ (max n₂ n₃), ?_⟩
  intro more hmore
  rw [findEraFirstBlock, hsearch more (by omega), Outcome.bind, hback more (by omega), Outcome.bind,
    hmid more (by omega)]

/-- Where the search lands on the first block of the era, nothing is ever returned. -/
theorem findEraFirstBlock_running (hera : Era c id first last) (h0 : c.authoritySetId 0 < id)
    (hrun : ∀ turns, searchForAuthoritySetBlock c id turns = .running ∨
      searchForAuthoritySetBlock c id turns = .done first) (turns : Nat) :
    findEraFirstBlock c id turns = .running := by
  obtain ⟨prev, hback, hprev, hbefore⟩ :=
    returns_backTurn h0 (first - approxSessionDurationInBlocks)
  have hlt : prev < first :=
    (hera.lt_iff (by have := hera.le; have := hera.last_le; omega)).mp hbefore
  unfold findEraFirstBlock
  rcases hrun turns with hsearch | hsearch
  · rw [hsearch, Outcome.bind]
  · rw [hsearch, Outcome.bind]
    rcases hback.run_eq turns with hback | hback
    · rw [hback, Outcome.bind]
    · rw [hback, Outcome.bind, running_midTurn hera h0 hlt]

/-- **When the first block of an era is found.**  For a set that is not the first one and has
come, the search ends with the one first block of its era if and only if that block is not the
first one of the era to be met. -/
theorem findEraFirstBlock_iff (c : Chain) (id : Nat) (h0 : c.authoritySetId 0 < id)
    (hheight : id ≤ c.authoritySetId c.height) : FindsFirst c id ↔ ¬ LandsOnFirst c id := by
  obtain ⟨first, last, hera⟩ := exists_era h0 hheight
  obtain ⟨b, hlands, hb, hset, hrun⟩ := exists_lands (Nat.le_of_lt h0) hheight
  have hmem := (hera.mem b hb).mp hset
  have hiff := lands_first_iff hera h0 hheight
  by_cases heq : b = first
  · subst heq
    refine iff_of_false ?_ (not_not.mpr ⟨b, last, hera, hiff.mp hlands⟩)
    rintro ⟨b', ⟨turns, hdone⟩, -⟩
    have := hdone turns (Nat.le_refl _)
    rw [findEraFirstBlock_running hera h0 hrun] at this
    cases this
  · refine iff_of_true ?_ ?_
    · refine ⟨first, findEraFirstBlock_done hera h0 hlands (by omega) hmem.2,
        hera.isFirstBlock h0, fun _ => hera.eq_of_isFirstBlock⟩
    · rintro ⟨first', last', hera', hmeets⟩
      obtain rfl := hera'.eq_of_isFirstBlock (hera.isFirstBlock h0)
      obtain ⟨turns, hturns⟩ := (lands_first_iff hera' h0 hheight).mpr hmeets
      obtain ⟨turns', hturns'⟩ := hlands
      have hfirst := hturns (max turns turns') (Nat.le_max_left _ _)
      rw [hturns' _ (Nat.le_max_right _ _)] at hfirst
      exact heq (Outcome.done.inj hfirst)

/-- In the sample chain the first block of set 2 is found, since block 4000 is met first. -/
theorem findEraFirstBlock_iff_sample : FindsFirst sampleChain 2 := by
  refine (findEraFirstBlock_iff sampleChain 2 (by decide) (by decide)).mpr ?_
  rintro ⟨first, last, hera, hmeets⟩
  have hset : first / 1500 = 2 := hera.setId_first
  have hmem := (hera.mem 3000 (by decide)).mp rfl
  have hmem' := (hera.mem 4000 (by decide)).mp rfl
  rcases hmeets with hlatest | ⟨-, hmeets⟩
  · have : first = 5000 := hlatest
    omega
  · have hprobe : State.probe (.searchBack sampleChain.height approxSessionDurationInBlocks) =
      4000 := rfl
    cases hmeets with
    | here h => omega
    | later h _ => omega
    | earlier h _ => omega

theorem eraOf_le_succ (n : Nat) : n / 1500 ≤ (n + 1) / 1500 := by omega

theorem eraOf_succ_le (n : Nat) : (n + 1) / 1500 ≤ n / 1500 + 1 := by omega

/-- A chain whose latest block is the first one of its set. -/
def freshChain : Chain where
  height := 3000
  authoritySetId n := n / 1500
  height_lt := by decide
  le_succ n _ := eraOf_le_succ n
  succ_le n _ := eraOf_succ_le n

/-- Right after a change of the authority set its first block is not found. -/
theorem fresh_era_not_found : freshChain.authoritySetId 0 < 2 ∧
    2 ≤ freshChain.authoritySetId freshChain.height ∧ ¬ FindsFirst freshChain 2 := by
  refine ⟨by decide, by decide, ?_⟩
  have hera : Era freshChain 2 3000 3000 := by
    refine ⟨Nat.le_refl _, Nat.le_refl _, ?_⟩
    intro n hn
    have hn : n ≤ 3000 := hn
    show n / 1500 = 2 ↔ _
    omega
  rintro ⟨b, ⟨turns, hdone⟩, -⟩
  have hrunning := hdone turns (Nat.le_refl _)
  rw [findEraFirstBlock_running hera (by decide) (fun _ => .inr rfl)] at hrunning
  cases hrunning

end GearBridges.GearRpcClient
