import GearBridges.Lib.Loop
import Mathlib.Algebra.Group.Nat.Defs
import Mathlib.Data.List.Basic

/-!
# GearRpcClient.AuthoritySetSearch

The search for a block of an authority set: back from the latest finalized block in steps that
double until the set is met or passed, then by halving the bracket.  The bracket always has a
block of an earlier and one of a later set at its ends, and sets change one at a time, so it has
a block of the wanted set inside and its middle is never one of its ends
(`searchForAuthoritySetBlock_returns`).
-/

namespace GearBridges.GearRpcClient

open Loop

/-! ## the chain -/

/-- The finalized chain that the node answers from, with the id of the authority set in the
storage of each block. -/
structure Chain where
  /-- The number of the latest finalized block. -/
  height : Nat
  authoritySetId : Nat → Nat
  height_lt : height < 2 ^ 31
  le_succ : ∀ n < height, authoritySetId n ≤ authoritySetId (n + 1)
  succ_le : ∀ n < height, authoritySetId (n + 1) ≤ authoritySetId n + 1

namespace Chain

variable {c : Chain} {n m : Nat}

theorem mono (hle : n ≤ m) (hm : m ≤ c.height) : c.authoritySetId n ≤ c.authoritySetId m := by
  induction m, hle using Nat.le_induction with
  | base => exact Nat.le_refl _
  | succ m _ ih => exact Nat.le_trans (ih (by omega)) (c.le_succ m (by omega))

/-- An earlier set means an earlier block. -/
theorem lt_of_setId_lt (hn : n ≤ c.height) (h : c.authoritySetId n < c.authoritySetId m) :
    n < m := by
  by_contra hge
  have := c.mono (Nat.not_lt.mp hge) hn
  omega

/-- Between a block of an earlier and one of a later set there is a third one. -/
theorem two_le_of_setId_lt {id : Nat} (hlt : n < m) (hm : m ≤ c.height)
    (hlow : c.authoritySetId n < id) (hhigh : id < c.authoritySetId m) : n + 2 ≤ m := by
  by_contra hnext
  obtain rfl : m = n + 1 := by omega
  have := c.succ_le n (by omega)
  omega

end Chain

/-! ## search_for_authority_set_block -/

def approxSessionDurationInBlocks : Nat := 1000

/-- `u32` addition and multiplication; `none` is an overflow. -/
def checkedU32 (n : Nat) : Option Nat := if n < 2 ^ 32 then some n else none

inductive State where
  | searchBack (latestBn step : Nat)
  | binarySearch (lowerBn higherBn : Nat)
deriving DecidableEq

/-- One turn of the loop; an overflow is a panic. -/
def searchTurn (c : Chain) (authoritySetId : Nat) : State → Turn State Nat
  | .searchBack latestBn step =>
      let nextBn := latestBn - step
      let nextVs := c.authoritySetId nextBn
      if nextVs = authoritySetId then .done nextBn
      else if authoritySetId < nextVs then
        match checkedU32 (step * 2) with
        | none => .panic
        | some step => .again (.searchBack nextBn step)
      else .again (.binarySearch nextBn latestBn)
  | .binarySearch lowerBn higherBn =>
      match checkedU32 (lowerBn + higherBn) with
      | none => .panic
      | some sum =>
          let midBn := sum / 2
          let midVs := c.authoritySetId midBn
          if midVs = authoritySetId then .done midBn
          else if authoritySetId < midVs then .again (.binarySearch lowerBn midBn)
          else .again (.binarySearch midBn higherBn)

/-- `search_for_authority_set_block`, for a number of turns. -/
def searchForAuthoritySetBlock (c : Chain) (authoritySetId turns : Nat) : Outcome Nat :=
  if c.authoritySetId c.height = authoritySetId then .done c.height
  else run (searchTurn c authoritySetId) turns (.searchBack c.height approxSessionDurationInBlocks)

variable {c : Chain} {id : Nat}

/-- What holds whenever a turn starts.  The step is what has been walked so far, and the first
step once more. -/
def Searching (c : Chain) (id : Nat) : State → Prop
  | .searchBack latestBn step => latestBn ≤ c.height ∧ id < c.authoritySetId latestBn ∧ 0 < step ∧
      step + latestBn ≤ c.height + approxSessionDurationInBlocks
  | .binarySearch lowerBn higherBn => lowerBn < higherBn ∧ higherBn ≤ c.height ∧
      c.authoritySetId lowerBn < id ∧ id < c.authoritySetId higherBn

/-- The blocks left: those below, while stepping back, and those of the bracket after that. -/
def State.measure (c : Chain) : State → Nat
  | .searchBack latestBn _ => c.height + 1 + latestBn
  | .binarySearch lowerBn higherBn => higherBn - lowerBn

theorem checkedU32_of_lt {n : Nat} (h : n < 2 ^ 32) : checkedU32 n = some n := if_pos h

/-- A turn of the search back. -/
theorem searchBack_turn (h0 : c.authoritySetId 0 ≤ id) {latestBn step : Nat}
    (h : Searching c id (.searchBack latestBn step)) :
    (∃ s, searchTurn c id (.searchBack latestBn step) = .again s ∧ Searching c id s ∧
      s.measure c < State.measure c (.searchBack latestBn step)) ∨
    ∃ b, searchTurn c id (.searchBack latestBn step) = .done b ∧ b ≤ c.height ∧
      c.authoritySetId b = id := by
  obtain ⟨hle, hlatest, hstep, hwalked⟩ := h
  have hheight := c.height_lt
  unfold approxSessionDurationInBlocks at hwalked
  have hpos : 0 < latestBn := by
    by_contra hzero
    obtain rfl : latestBn = 0 := by omega
    omega
  simp only [searchTurn]
  by_cases heq : c.authoritySetId (latestBn - step) = id
  · exact .inr ⟨_, if_pos heq, by omega, heq⟩
  · rw [if_neg heq]
    by_cases hgt : id < c.authoritySetId (latestBn - step)
    · -- block 0 is not of a later set, so the step has not gone past it
      have hroom : step < latestBn := by
        by_contra hge
        rw [Nat.sub_eq_zero_of_le (Nat.not_lt.mp hge)] at hgt
        omega
      rw [if_pos hgt, checkedU32_of_lt (by omega)]
      refine .inl ⟨_, rfl, ⟨by omega, hgt, by omega, ?_⟩, ?_⟩
      · simp only [approxSessionDurationInBlocks]
        omega
      · simp only [State.measure]
        omega
    · rw [if_neg hgt]
      refine .inl ⟨_, rfl, ⟨by omega, hle, by omega, hlatest⟩, ?_⟩
      simp only [State.measure]
      omega

/-- The middle of a bracket is inside. -/
theorem mid_lt {lowerBn higherBn : Nat} (h : lowerBn + 2 ≤ higherBn) :
    lowerBn < (lowerBn + higherBn) / 2 ∧ (lowerBn + higherBn) / 2 < higherBn := by
  omega

/-- A turn of the bisection. -/
theorem binarySearch_turn {lowerBn higherBn : Nat}
    (h : Searching c id (.binarySearch lowerBn higherBn)) :
    (∃ s, searchTurn c id (.binarySearch lowerBn higherBn) = .again s ∧ Searching c id s ∧
      s.measure c < State.measure c (.binarySearch lowerBn higherBn)) ∨
    ∃ b, searchTurn c id (.binarySearch lowerBn higherBn) = .done b ∧ b ≤ c.height ∧
      c.authoritySetId b = id := by
  obtain ⟨hlt, hle, hlower, hhigher⟩ := h
  have hheight := c.height_lt
  obtain ⟨hmid, hmid'⟩ := mid_lt (Chain.two_le_of_setId_lt hlt hle hlower hhigher)
  simp only [searchTurn, checkedU32_of_lt (show lowerBn + higherBn < 2 ^ 32 by omega)]
  by_cases heq : c.authoritySetId ((lowerBn + higherBn) / 2) = id
  · exact .inr ⟨_, if_pos heq, by omega, heq⟩
  · rw [if_neg heq]
    by_cases hgt : id < c.authoritySetId ((lowerBn + higherBn) / 2)
    · rw [if_pos hgt]
      refine .inl ⟨_, rfl, ⟨hmid, by omega, hlower, hgt⟩, ?_⟩
      simp only [State.measure]
      omega
    · rw [if_neg hgt]
      refine .inl ⟨_, rfl, ⟨hmid', hle, by omega, hhigher⟩, ?_⟩
      simp only [State.measure]
      omega

/-- The search from any point on returns a block of the set. -/
theorem returns_searchTurn (h0 : c.authoritySetId 0 ≤ id) {s : State} (h : Searching c id s) :
    ∃ b, Returns (searchTurn c id) s b ∧ b ≤ c.height ∧ c.authoritySetId b = id := by
  refine returns_of_measure (Searching c id) (State.measure c) _ ?_ h
  intro s hs
  cases s with
  | searchBack latestBn step => exact searchBack_turn h0 hs
  | binarySearch lowerBn higherBn => exact binarySearch_turn hs

/-- The start of the search, when the latest block is of a later set. -/
theorem searching_start (h : id ≤ c.authoritySetId c.height)
    (hne : c.authoritySetId c.height ≠ id) :
    Searching c id (.searchBack c.height approxSessionDurationInBlocks) :=
  ⟨Nat.le_refl _, Nat.lt_of_le_of_ne h hne.symm, by decide, by omega⟩

/-- From some number of turns on the search has returned the block. -/
def Lands (c : Chain) (id b : Nat) : Prop :=
  ∃ turns, ∀ more, turns ≤ more → searchForAuthoritySetBlock c id more = .done b

theorem exists_lands (h0 : c.authoritySetId 0 ≤ id) (hheight : id ≤ c.authoritySetId c.height) :
    ∃ b, Lands c id b ∧ b ≤ c.height ∧ c.authoritySetId b = id ∧
      ∀ turns, searchForAuthoritySetBlock c id turns = .running ∨
        searchForAuthoritySetBlock c id turns = .done b := by
  unfold Lands searchForAuthoritySetBlock
  by_cases hlatest : c.authoritySetId c.height = id
  · simp only [if_pos hlatest]
    exact ⟨c.height, ⟨0, fun _ _ => rfl⟩, Nat.le_refl _, hlatest, fun _ => .inr rfl⟩
  · simp only [if_neg hlatest]
    obtain ⟨b, hreturns, hb, hset⟩ := returns_searchTurn h0 (searching_start hheight hlatest)
    exact ⟨b, hreturns.exists_le, hb, hset, hreturns.run_eq⟩

/-- **The search ends with a block of the set.**  From some number of turns on it has returned
such a block, and at no time has there been an overflow. -/
theorem searchForAuthoritySetBlock_returns (c : Chain) (id : Nat) (h0 : c.authoritySetId 0 ≤ id)
    (hheight : id ≤ c.authoritySetId c.height) :
    ∃ b, Lands c id b ∧ b ≤ c.height ∧ c.authoritySetId b = id ∧
      ∀ turns, searchForAuthoritySetBlock c id turns ≠ .panic := by
  obtain ⟨b, hlands, hb, hset, hrun⟩ := exists_lands h0 hheight
  refine ⟨b, hlands, hb, hset, ?_⟩
  intro turns
  rcases hrun turns with hrun | hrun
  · simp [hrun]
  · simp [hrun]

/-- A chain of 5001 blocks in which a new set comes every 1500 blocks. -/
def sampleChain : Chain where
  height := 5000
  authoritySetId n := n / 1500
  height_lt := by decide
  le_succ n _ := by omega
  succ_le n _ := by omega

/-- Set 1 is met by the second step back. -/
theorem searchForAuthoritySetBlock_returns_sample :
    ∃ b, Lands sampleChain 1 b ∧ b / 1500 = 1 := by
  obtain ⟨b, hlands, -, hset, -⟩ :=
    searchForAuthoritySetBlock_returns sampleChain 1 (by decide) (by decide)
  exact ⟨b, hlands, hset⟩

end GearBridges.GearRpcClient
