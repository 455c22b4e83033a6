import Mathlib.Data.Nat.ModEq

/-!
# Relayer.SlotsBatch

`slots_batch::Iter` cuts a range of slots into right open intervals, the newest first.  All
but the last have `batch_size - 1` slots; the last one starts at the start of the range and
has what is left, at least one slot.  Together they partition the range
(`iterating_partitions`).
-/

namespace GearBridges.EthereumCheckpoints

/-- Produces right open intervals of the specific size in backward direction. -/
structure Iter where
  slotStart : Nat
  slotEnd : Nat
  batchSize : Nat
deriving DecidableEq

namespace Iter

def new (slotStart slotEnd : Nat) (batchSize : Nat) : Option Iter :=
  if batchSize < 2 ∨ slotEnd ≤ slotStart then none else some ⟨slotStart, slotEnd, batchSize⟩

/-- The next interval and the iterator after it.  Sums and differences are those of `u64`. -/
def next (self : Iter) : Option ((Nat × Nat) × Iter) :=
  if (self.slotStart + self.batchSize) % 2 ^ 64 ≤ self.slotEnd then
    let slotStart := (self.slotEnd + (2 ^ 64 - self.batchSize) + 1) % 2 ^ 64
    some ((slotStart, self.slotEnd), { self with slotEnd := slotStart })
  else if self.slotStart < self.slotEnd then
    some ((self.slotStart, self.slotEnd), { self with slotEnd := self.slotStart })
  else none

def intervalsUpTo : Nat → Iter → List (Nat × Nat)
  | 0, _ => []
  | fuel + 1, self =>
      match self.next with
      | none => []
      | some (interval, rest) =>
          interval :: if rest.slotEnd < self.slotEnd then intervalsUpTo fuel rest else []

/-- The intervals, up to the last one or up to one with its ends the wrong way round, the
headers of which cannot be requested. -/
def intervals (self : Iter) : List (Nat × Nat) := intervalsUpTo (self.slotEnd + 1) self

/-- There is fuel for as long as the end goes down. -/
theorem intervalsUpTo_eq_of_lt {fuel fuel' : Nat} {self : Iter} (h : self.slotEnd < fuel)
    (h' : self.slotEnd < fuel') : intervalsUpTo fuel self = intervalsUpTo fuel' self := by
  induction fuel generalizing fuel' self with
  | zero => exact absurd h (Nat.not_lt_zero _)
  | succ fuel ih =>
      cases fuel' with
      | zero => exact absurd h' (Nat.not_lt_zero _)
      | succ fuel' =>
          unfold intervalsUpTo
          cases self.next with
          | none => rfl
          | some p =>
              by_cases hlt : p.2.slotEnd < self.slotEnd
              · have heq : intervalsUpTo fuel p.2 = intervalsUpTo fuel' p.2 :=
                  ih (by omega) (by omega)
                simp only [if_pos hlt, heq]
              · simp only [if_neg hlt]

theorem intervals_eq (self : Iter) : self.intervals =
    match self.next with
    | none => []
    | some (interval, rest) =>
        interval :: if rest.slotEnd < self.slotEnd then rest.intervals else [] := by
  unfold intervals
  rw [intervalsUpTo]
  cases self.next with
  | none => rfl
  | some p =>
      by_cases hlt : p.2.slotEnd < self.slotEnd
      · simp only [if_pos hlt]
        rw [intervalsUpTo_eq_of_lt hlt (Nat.lt_succ_self _)]
      · simp only [if_neg hlt]

section

variable {slotStart slotEnd : Nat} {n : Nat}

theorem intervals_ne_nil (hlt : slotStart < slotEnd) :
    (Iter.mk slotStart slotEnd n).intervals ≠ [] := by
  rw [intervals_eq, next]
  split
  · next heq =>
    simp only [if_pos hlt] at heq
    split at heq <;> contradiction
  · exact List.cons_ne_nil _ _

/-- A range longer than a batch is cut at its newest end. -/
theorem intervals_of_le (hn : 2 ≤ n) (hsum : slotStart + n < 2 ^ 64) (hend : slotEnd < 2 ^ 64)
    (hle : slotStart + n ≤ slotEnd) : (Iter.mk slotStart slotEnd n).intervals =
      (slotEnd - (n - 1), slotEnd) :: (Iter.mk slotStart (slotEnd - (n - 1)) n).intervals := by
  have hcut : (slotEnd + (2 ^ 64 - n) + 1) % 2 ^ 64 = slotEnd - (n - 1) := by omega
  rw [intervals_eq, next]
  simp only [Nat.mod_eq_of_lt hsum, if_pos hle, hcut]
  rw [if_pos (by omega)]

/-- What is left is the last interval. -/
theorem intervals_of_lt (hsum : slotStart + n < 2 ^ 64) (hlt : slotStart < slotEnd)
    (hgt : slotEnd < slotStart + n) :
    (Iter.mk slotStart slotEnd n).intervals = [(slotStart, slotEnd)] := by
  have hlast : (Iter.mk slotStart slotStart n).intervals = [] := by
    rw [intervals_eq, next]
    simp only [Nat.mod_eq_of_lt hsum, Nat.lt_irrefl, if_false]
    rw [if_neg (by omega)]
  rw [intervals_eq, next]
  simp only [Nat.mod_eq_of_lt hsum, if_neg (Nat.not_le.mpr hgt), if_pos hlt, hlast]

/-- A range that is not empty has a first interval. -/
theorem intervals_eq_cons (hn : 2 ≤ n) (hsum : slotStart + n < 2 ^ 64) (hend : slotEnd < 2 ^ 64)
    (hlt : slotStart < slotEnd) : ∃ lo rest,
      (Iter.mk slotStart slotEnd n).intervals = (lo, slotEnd) :: rest ∧ lo ≤ slotEnd := by
  by_cases hle : slotStart + n ≤ slotEnd
  · exact ⟨_, _, intervals_of_le hn hsum hend hle, by omega⟩
  · exact ⟨_, _, intervals_of_lt hsum hlt (Nat.not_le.mp hle), by omega⟩

/-- When the sum wraps, the first interval ends below its start. -/
theorem intervals_of_wraps (hn : n < 2 ^ 64) (hsum : 2 ^ 64 ≤ slotStart + n)
    (hlt : slotStart < slotEnd) (hend : slotEnd < 2 ^ 63) :
    ∃ lo rest, (Iter.mk slotStart slotEnd n).intervals = (lo, slotEnd) :: rest ∧
      slotEnd < lo := by
  have hmod : (slotStart + n) % 2 ^ 64 ≤ slotEnd := by omega
  rw [intervals_eq, next]
  simp only [if_pos hmod]
  exact ⟨_, _, rfl, by omega⟩

end

/-- The number of slots of the last interval. -/
def lastLength (slotStart slotEnd : Nat) (n : Nat) : Nat :=
  (slotEnd - slotStart - 1) % (n - 1) + 1

theorem lastLength_of_lt {slotStart slotEnd : Nat} {n : Nat} (hlt : slotStart < slotEnd)
    (hgt : slotEnd < slotStart + n) : slotStart + lastLength slotStart slotEnd n = slotEnd := by
  unfold lastLength
  rw [Nat.mod_eq_of_lt (by omega)]
  omega

theorem lastLength_of_le {slotStart slotEnd : Nat} {n : Nat} (hn : 2 ≤ n)
    (hle : slotStart + n ≤ slotEnd) :
    lastLength slotStart (slotEnd - (n - 1)) n = lastLength slotStart slotEnd n := by
  have hsub : slotEnd - (n - 1) - slotStart - 1 = slotEnd - slotStart - 1 - (n - 1) := by omega
  unfold lastLength
  rw [hsub, ← Nat.mod_eq_sub_mod (by omega)]

/-- The last interval lies below the first cut. -/
theorem add_lastLength_le {slotStart slotEnd : Nat} {n : Nat} (hn : 2 ≤ n)
    (hle : slotStart + n ≤ slotEnd) :
    slotStart + lastLength slotStart slotEnd n ≤ slotEnd - (n - 1) := by
  have hmod := Nat.mod_lt (slotEnd - (n - 1) - slotStart - 1) (show 0 < n - 1 by omega)
  have hself := Nat.mod_le (slotEnd - (n - 1) - slotStart - 1) (n - 1)
  rw [← lastLength_of_le hn hle]
  unfold lastLength
  omega

-- the intervals of the source's own test
example : (Iter.mk 3 10 3).intervals = [(8, 10), (6, 8), (4, 6), (3, 4)] := by decide

/-! ## iterating -/

/-- Iterating yields these intervals and then `None`. -/
inductive Yields : Iter → List (Nat × Nat) → Prop
  | done {self : Iter} : self.next = none → Yields self []
  | more {self rest : Iter} {interval : Nat × Nat} {l : List (Nat × Nat)} :
      self.next = some (interval, rest) → Yields rest l → Yields self (interval :: l)

/-- There is one way to iterate. -/
theorem Yields.unique {self : Iter} {l l' : List (Nat × Nat)} (h : self.Yields l)
    (h' : self.Yields l') : l' = l := by
  induction h generalizing l' with
  | done hnone =>
      cases h' with
      | done => rfl
      | more hsome => simp [hnone] at hsome
  | more hsome _ ih =>
      cases h' with
      | done hnone => simp [hnone] at hsome
      | more hsome' hrest =>
          obtain ⟨rfl, rfl⟩ : _ ∧ _ := by simpa [hsome] using hsome'
          rw [ih hrest]

/-- A range cut from its end into intervals of at most so many slots. -/
inductive Cut (slotStart size : Nat) : Nat → List (Nat × Nat) → Prop
  | last {slotEnd : Nat} : slotStart < slotEnd → slotEnd ≤ slotStart + size →
      Cut slotStart size slotEnd [(slotStart, slotEnd)]
  | cut {slotEnd mid : Nat} {l : List (Nat × Nat)} : mid < slotEnd → slotEnd ≤ mid + size →
      Cut slotStart size mid l → Cut slotStart size slotEnd ((mid, slotEnd) :: l)

/-- What it is to partition the range `[slotStart, slotEnd)`, the newest interval first. -/
structure Partitions (slotStart slotEnd size : Nat) (l : List (Nat × Nat)) : Prop where
  nonempty : ∀ interval ∈ l, interval.1 < interval.2
  size_le : ∀ interval ∈ l, interval.2 - interval.1 ≤ size
  first : l.head?.map Prod.snd = some slotEnd
  last : l.getLast?.map Prod.fst = some slotStart
  adjacent : l.IsChain fun newer older => newer.1 = older.2
  descending : l.Pairwise fun newer older => older.2 ≤ newer.1
  exactly_one : ∀ slot, slotStart ≤ slot ∧ slot < slotEnd ↔
    ∃! interval, interval ∈ l ∧ interval.1 ≤ slot ∧ slot < interval.2

section

variable {slotStart size slotEnd : Nat} {l : List (Nat × Nat)}

theorem Cut.lt (h : Cut slotStart size slotEnd l) : slotStart < slotEnd := by
  induction h with
  | last hlt _ => exact hlt
  | cut hlt _ _ ih => omega

theorem Cut.bounds (h : Cut slotStart size slotEnd l) {interval : Nat × Nat}
    (hmem : interval ∈ l) : interval.1 < interval.2 ∧ interval.2 ≤ interval.1 + size ∧
      slotStart ≤ interval.1 ∧ interval.2 ≤ slotEnd := by
  induction h with
  | last hlt hsize => simp_all
  | cut hlt hsize hrest ih =>
      have hstart := hrest.lt
      rcases List.mem_cons.mp hmem with rfl | hold
      · exact ⟨hlt, hsize, Nat.le_of_lt hstart, Nat.le_refl _⟩
      · have hbounds := ih hold
        omega

theorem Cut.head? (h : Cut slotStart size slotEnd l) :
    ∃ lo, l.head? = some (lo, slotEnd) := by
  cases h with
  | last => exact ⟨_, rfl⟩
  | cut => exact ⟨_, rfl⟩

theorem Cut.getLast? (h : Cut slotStart size slotEnd l) :
    ∃ hi, l.getLast? = some (slotStart, hi) := by
  induction h with
  | last => exact ⟨_, rfl⟩
  | cut _ _ _ ih =>
      obtain ⟨hi, hlast⟩ := ih
      exact ⟨hi, by simp [List.getLast?_cons, hlast]⟩

theorem Cut.adjacent (h : Cut slotStart size slotEnd l) :
    l.IsChain fun newer older => newer.1 = older.2 := by
  induction h with
  | last => exact .singleton _
  | cut _ _ hrest ih =>
      cases hrest with
      | last => simp
      | cut => exact List.isChain_cons_cons.mpr ⟨rfl, ih⟩

theorem Cut.descending (h : Cut slotStart size slotEnd l) :
    l.Pairwise fun newer older => older.2 ≤ newer.1 := by
  induction h with
  | last => simp
  | cut _ _ hrest ih => exact List.pairwise_cons.mpr ⟨fun _ hmem => (hrest.bounds hmem).2.2.2, ih⟩

/-- Every slot of the range is in an interval. -/
theorem Cut.exists_mem (h : Cut slotStart size slotEnd l) {slot : Nat} (hge : slotStart ≤ slot)
    (hlt : slot < slotEnd) : ∃ interval ∈ l, interval.1 ≤ slot ∧ slot < interval.2 := by
  induction h with
  | last => exact ⟨_, List.mem_singleton_self _, hge, hlt⟩
  | @cut slotEnd mid l _ _ _ ih =>
      by_cases hmid : slot < mid
      · obtain ⟨interval, hmem, hin⟩ := ih hmid
        exact ⟨interval, List.mem_cons_of_mem _ hmem, hin⟩
      · exact ⟨_, List.mem_cons_self, Nat.not_lt.mp hmid, hlt⟩

/-- A slot is in one interval only. -/
theorem eq_of_descending (h : l.Pairwise fun newer older => older.2 ≤ newer.1)
    {a b : Nat × Nat} (ha : a ∈ l) (hb : b ∈ l) {slot : Nat} (hina : a.1 ≤ slot ∧ slot < a.2)
    (hinb : b.1 ≤ slot ∧ slot < b.2) : a = b := by
  induction l with
  | nil => contradiction
  | cons c l ih =>
      obtain ⟨hhead, htail⟩ := List.pairwise_cons.mp h
      rcases List.mem_cons.mp ha with rfl | ha' <;> rcases List.mem_cons.mp hb with rfl | hb'
      · rfl
      · have := hhead b hb'
        omega
      · have := hhead a ha'
        omega
      · exact ih htail ha' hb'

theorem Cut.partitions (h : Cut slotStart size slotEnd l) :
    Partitions slotStart slotEnd size l where
  nonempty _ hmem := (h.bounds hmem).1
  size_le _ hmem := by
    have := (h.bounds hmem).2.1
    omega
  first := by
    obtain ⟨lo, hhead⟩ := h.head?
    simp [hhead]
  last := by
    obtain ⟨hi, hlast⟩ := h.getLast?
    simp [hlast]
  adjacent := h.adjacent
  descending := h.descending
  exactly_one slot := by
    constructor
    · rintro ⟨hge, hlt⟩
      obtain ⟨interval, hmem, hin⟩ := h.exists_mem hge hlt
      refine ⟨interval, ⟨hmem, hin⟩, ?_⟩
      rintro other ⟨hother, hinother⟩
      exact eq_of_descending h.descending hother hmem hinother hin
    · rintro ⟨interval, ⟨hmem, hin⟩, -⟩
      have := h.bounds hmem
      omega

end

/-- Iterating cuts the range. -/
theorem exists_yields {slotStart slotEnd batchSize : Nat} (hbatch : 2 ≤ batchSize)
    (hsum : slotStart + batchSize < 2 ^ 64) (hlt : slotStart < slotEnd)
    (hend : slotEnd < 2 ^ 64) :
    ∃ l, (Iter.mk slotStart slotEnd batchSize).Yields l ∧
      Cut slotStart (batchSize - 1) slotEnd l := by
  induction slotEnd using Nat.strong_induction_on with
  | _ slotEnd ih =>
      by_cases hle : slotStart + batchSize ≤ slotEnd
      · have hcut : (slotEnd + (2 ^ 64 - batchSize) + 1) % 2 ^ 64 = slotEnd - (batchSize - 1) := by
          omega
        obtain ⟨l, hyields, hrest⟩ :=
          ih (slotEnd - (batchSize - 1)) (by omega) (by omega) (by omega)
        refine ⟨_, .more ?_ hyields, .cut (by omega) (by omega) hrest⟩
        simp only [next, Nat.mod_eq_of_lt hsum, if_pos hle, hcut]
      · have hnext : (⟨slotStart, slotEnd, batchSize⟩ : Iter).next =
            some ((slotStart, slotEnd), ⟨slotStart, slotStart, batchSize⟩) := by
          simp only [next, Nat.mod_eq_of_lt hsum, if_neg hle, if_pos hlt]
        have hdone : (⟨slotStart, slotStart, batchSize⟩ : Iter).next = none := by
          simp only [next, Nat.mod_eq_of_lt hsum, Nat.lt_irrefl, if_false]
          rw [if_neg (by omega)]
        exact ⟨_, .more hnext (.done hdone), .last hlt (by omega)⟩

/-- **Iterating partitions the range**: it ends, and what it has yielded then partitions the range
into intervals of at most `batch_size - 1` slots. -/
theorem iterating_partitions {slotStart slotEnd batchSize : Nat} (hlt : slotStart < slotEnd)
    (hend : slotEnd < 2 ^ 64) (hbatch : 2 ≤ batchSize) (hsum : slotStart + batchSize < 2 ^ 64) :
    ∃ iter l, new slotStart slotEnd batchSize = some iter ∧ (∀ l', iter.Yields l' ↔ l' = l) ∧
      Partitions slotStart slotEnd (batchSize - 1) l := by
  obtain ⟨l, hyields, hcut⟩ := exists_yields hbatch hsum hlt hend
  refine ⟨_, l, if_neg (by omega), fun l' => ⟨hyields.unique, ?_⟩, hcut.partitions⟩
  rintro rfl
  exact hyields

/-- The range of the source's own test. -/
theorem iterating_partitions_seven :
    ∃ iter l, new 3 10 3 = some iter ∧ (∀ l', iter.Yields l' ↔ l' = l) ∧ Partitions 3 10 2 l :=
  iterating_partitions (by decide) (by decide) (by decide) (by decide)

end Iter

end GearBridges.EthereumCheckpoints
