import Mathlib.Data.Finset.Sort

/-!
# Lib.Greatest

The `c` greatest elements of a finite set, in descending order, and how a buffer that holds them
is kept up to date: an element it has changes nothing, a new one goes in as long as there is
room, and after that it takes the place of the least one.
-/

namespace Greatest

variable {κ : Type*} [LinearOrder κ]

/-- The `c` greatest elements of a set, the greatest first. -/
def greatest (c : Nat) (s : Finset κ) : List κ := (s.sort (· ≥ ·)).take c

/-- `l` is a descending list of at most `c` elements of `s`, and what it leaves out is below a
list of full length. -/
structure Holds (c : Nat) (s : Finset κ) (l : List κ) : Prop where
  sorted : l.Pairwise (· > ·)
  subset : ∀ x ∈ l, x ∈ s
  bounded : l.length ≤ c
  rest : ∀ x ∈ s, x ∉ l → l.length = c ∧ ∀ y ∈ l, x < y

variable {c : Nat} {s : Finset κ} {l l' : List κ} {k : κ}

theorem Holds.empty (c : Nat) : Holds c (∅ : Finset κ) [] :=
  ⟨.nil, by simp, Nat.zero_le c, by simp⟩

/-- The list is the sorted set as far as it goes. -/
theorem Holds.sort_eq (h : Holds c s l) :
    s.sort (· ≥ ·) = l ++ (s.filter (· ∉ l)).sort (· ≥ ·) := by
  have hge : (l ++ (s.filter (· ∉ l)).sort (· ≥ ·)).Pairwise (· ≥ ·) := by
    rw [List.pairwise_append]
    refine ⟨h.sorted.imp le_of_lt, Finset.pairwise_sort _ _, ?_⟩
    intro x hx y hy
    rw [Finset.mem_sort, Finset.mem_filter] at hy
    exact le_of_lt ((h.rest y hy.1 hy.2).2 x hx)
  have hnodup : (l ++ (s.filter (· ∉ l)).sort (· ≥ ·)).Nodup := by
    rw [List.nodup_append]
    refine ⟨h.sorted.imp ne_of_gt, Finset.sort_nodup _ _, ?_⟩
    intro x hx y hy hxy
    rw [Finset.mem_sort, Finset.mem_filter] at hy
    exact hy.2 (hxy ▸ hx)
  refine List.Perm.eq_of_pairwise ?_ (Finset.pairwise_sort _ _) hge ?_
  · intro x y _ _ hxy hyx
    exact le_antisymm hyx hxy
  · rw [List.perm_ext_iff_of_nodup (Finset.sort_nodup _ _) hnodup]
    intro x
    rw [Finset.mem_sort, List.mem_append, Finset.mem_sort, Finset.mem_filter]
    constructor
    · intro hx
      by_cases hl : x ∈ l
      · exact .inl hl
      · exact .inr ⟨hx, hl⟩
    · intro hx
      exact hx.elim (h.subset x) And.left

/-- A list that holds the greatest elements is the list of them. -/
theorem Holds.eq_greatest (h : Holds c s l) : l = greatest c s := by
  rw [greatest, h.sort_eq]
  by_cases hfull : l.length = c
  · rw [List.take_left' hfull]
  · have hnone : s.filter (· ∉ l) = ∅ := by
      rw [Finset.filter_eq_empty_iff]
      intro x hx hl
      exact hfull (h.rest x hx hl).1
    rw [hnone, Finset.sort_empty, List.append_nil, List.take_of_length_le h.bounded]

/-- A list with room holds the whole set. -/
theorem Holds.mem_of_room (h : Holds c s l) (hroom : l.length < c) {x : κ} (hx : x ∈ s) :
    x ∈ l := by
  by_contra hl
  exact absurd (h.rest x hx hl).1 (Nat.ne_of_lt hroom)

/-! ## one more element -/

/-- An element the list has. -/
theorem Holds.insert_of_mem (h : Holds c s l) (hk : k ∈ l) : Holds c (insert k s) l := by
  rw [Finset.insert_eq_of_mem (h.subset k hk)]
  exact h

/-- A new element while there is room. -/
theorem Holds.insert_of_room (h : Holds c s l) (hroom : l.length < c)
    (hsorted : l'.Pairwise (· > ·)) (hperm : l'.Perm (k :: l)) : Holds c (insert k s) l' := by
  refine ⟨hsorted, ?_, by rw [hperm.length_eq]; exact hroom, ?_⟩
  · intro x hx
    rw [hperm.mem_iff, List.mem_cons] at hx
    exact Finset.mem_insert.mpr (hx.imp_right (h.subset x))
  · intro x hx hl
    rw [hperm.mem_iff, List.mem_cons] at hl
    exact absurd ((Finset.mem_insert.mp hx).imp_right (h.mem_of_room hroom)) hl

/-- A new element above the least one of a full list takes its place. -/
theorem Holds.insert_of_full {front : List κ} {last : κ} (h : Holds c s (front ++ [last]))
    (hfull : (front ++ [last]).length = c) (hlast : last < k) (hsorted : l'.Pairwise (· > ·))
    (hperm : l'.Perm (k :: front)) : Holds c (insert k s) l' := by
  have hlength : l'.length = c := by
    rw [hperm.length_eq, ← hfull, List.length_append, List.length_cons, List.length_singleton]
  -- everything that is kept is above the one that is dropped
  have habove : ∀ y ∈ l', last < y := by
    intro y hy
    rw [hperm.mem_iff, List.mem_cons] at hy
    rcases hy with rfl | hy
    · exact hlast
    · exact (List.pairwise_append.mp h.sorted).2.2 y hy last (List.mem_singleton.mpr rfl)
  refine ⟨hsorted, ?_, le_of_eq hlength, ?_⟩
  · intro x hx
    rw [hperm.mem_iff, List.mem_cons] at hx
    refine Finset.mem_insert.mpr (hx.imp_right ?_)
    exact fun hx => h.subset x (List.mem_append_left _ hx)
  · intro x hx hl
    refine ⟨hlength, ?_⟩
    rw [hperm.mem_iff, List.mem_cons, not_or] at hl
    have hx := (Finset.mem_insert.mp hx).resolve_left hl.1
    intro y hy
    by_cases hxl : x = last
    · rw [hxl]
      exact habove y hy
    · have hout : x ∉ front ++ [last] := by simp [hl.2, hxl]
      exact lt_trans ((h.rest x hx hout).2 last (by simp)) (habove y hy)

end Greatest
