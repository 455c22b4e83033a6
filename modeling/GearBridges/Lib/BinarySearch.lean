import Mathlib.Data.List.Basic

/-!
# Lib.BinarySearch

Binary search in a sorted list, as far as its documentation goes: `Ok` with the position of
some equal element, or `Err` with the position where one could be inserted (`Search`).
Which of several equal elements is hit is left open.  `std` is one implementation, the one
of the Rust library, which halves the interval until one element is left; it hits the last of
several equal elements (`stdSearch_hitsLast`), which its documentation does not promise.
-/

namespace BinarySearch

variable {α : Type}

/-- Smaller elements come first, then the equal ones, then the greater ones. -/
def Ordered (cmp : α → Ordering) (l : List α) : Prop :=
  l.Pairwise fun x y => (cmp y = .lt → cmp x = .lt) ∧ (cmp x = .gt → cmp y = .gt)

/-- What a result says about the list. -/
def Correct (cmp : α → Ordering) (l : List α) : Except Nat Nat → Prop
  | .ok i => ∃ x, l[i]? = some x ∧ cmp x = .eq
  | .error i => i ≤ l.length ∧ (∀ x ∈ l.take i, cmp x = .lt) ∧ ∀ x ∈ l.drop i, cmp x = .gt

/-- A binary search. -/
structure Search where
  run : ∀ {α : Type}, (α → Ordering) → List α → Except Nat Nat
  correct : ∀ {α : Type} {cmp : α → Ordering} {l : List α}, Ordered cmp l → Correct cmp l (run cmp l)

/-- A list in the order of a key is searched by comparing keys. -/
theorem Ordered.of_keys {key : α → Nat} {l : List α}
    (h : l.Pairwise fun x y => key x ≤ key y) (k : Nat) : Ordered (fun x => compare (key x) k) l := by
  refine h.imp ?_
  intro x y hxy
  constructor
  · intro hy
    rw [Nat.compare_eq_lt] at hy ⊢
    omega
  · intro hx
    rw [Nat.compare_eq_gt] at hx ⊢
    omega

/-- The position a result names, hit or not. -/
def position : Except Nat Nat → Nat
  | .ok i | .error i => i

/-- Of several equal elements the search hits the last one. -/
def Search.HitsLast (search : Search) : Prop :=
  ∀ {α : Type} {cmp : α → Ordering} {l : List α} {i : Nat}, Ordered cmp l →
    search.run cmp l = .ok i → ∀ x ∈ l.drop (i + 1), cmp x = .gt

theorem mem_drop_iff {l : List α} {i : Nat} {x : α} :
    x ∈ l.drop i ↔ ∃ j, i ≤ j ∧ l[j]? = some x := by
  rw [List.mem_iff_getElem?]
  simp only [List.getElem?_drop]
  constructor
  · rintro ⟨j, hj⟩
    exact ⟨i + j, Nat.le_add_right _ _, hj⟩
  · rintro ⟨j, hle, hj⟩
    exact ⟨j - i, by rwa [Nat.add_sub_cancel' hle]⟩

theorem mem_take_iff {l : List α} {i : Nat} {x : α} :
    x ∈ l.take i ↔ ∃ j, j < i ∧ l[j]? = some x := by
  rw [List.mem_iff_getElem?]
  simp only [List.getElem?_take]
  constructor
  · rintro ⟨j, hj⟩
    split at hj
    · exact ⟨j, ‹_›, hj⟩
    · contradiction
  · rintro ⟨j, hlt, hj⟩
    exact ⟨j, by rwa [if_pos hlt]⟩

theorem Ordered.gt {cmp : α → Ordering} {l : List α} (h : Ordered cmp l) {i j : Nat} {x y : α}
    (hij : i ≤ j) (hx : l[i]? = some x) (hy : l[j]? = some y) (hgt : cmp x = .gt) : cmp y = .gt := by
  rcases Nat.lt_or_eq_of_le hij with hlt | rfl
  · obtain ⟨hi, rfl⟩ := List.getElem?_eq_some_iff.mp hx
    obtain ⟨hj, rfl⟩ := List.getElem?_eq_some_iff.mp hy
    exact (List.pairwise_iff_getElem.mp h i j hi hj hlt).2 hgt
  · rw [hx] at hy
    cases hy
    exact hgt

theorem Ordered.lt {cmp : α → Ordering} {l : List α} (h : Ordered cmp l) {i j : Nat} {x y : α}
    (hij : i ≤ j) (hx : l[i]? = some x) (hy : l[j]? = some y) (hlt : cmp y = .lt) : cmp x = .lt := by
  rcases Nat.lt_or_eq_of_le hij with hij | rfl
  · obtain ⟨hi, rfl⟩ := List.getElem?_eq_some_iff.mp hx
    obtain ⟨hj, rfl⟩ := List.getElem?_eq_some_iff.mp hy
    exact (List.pairwise_iff_getElem.mp h i j hi hj hij).1 hlt
  · rw [hy] at hx
    cases hx
    exact hlt

section Result

variable {cmp : α → Ordering} {l : List α} {r : Except Nat Nat}

theorem Correct.position_le (hr : Correct cmp l r) : position r ≤ l.length := by
  cases r with
  | ok i =>
      obtain ⟨x, hx, -⟩ := hr
      obtain ⟨hlt, -⟩ := List.getElem?_eq_some_iff.mp hx
      exact Nat.le_of_lt hlt
  | error i => exact hr.1

/-- Nothing before the position is greater. -/
theorem Correct.take_ne_gt (h : Ordered cmp l) (hr : Correct cmp l r) {x : α}
    (hx : x ∈ l.take (position r)) : cmp x ≠ .gt := by
  cases r with
  | ok i =>
      obtain ⟨y, hy, heq⟩ := hr
      obtain ⟨j, hlt, hj⟩ := mem_take_iff.mp hx
      intro hgt
      rw [h.gt (Nat.le_of_lt hlt) hj hy hgt] at heq
      contradiction
  | error i =>
      rw [hr.2.1 x hx]
      decide

/-- Nothing from the position on is smaller. -/
theorem Correct.drop_ne_lt (h : Ordered cmp l) (hr : Correct cmp l r) {x : α}
    (hx : x ∈ l.drop (position r)) : cmp x ≠ .lt := by
  cases r with
  | ok i =>
      obtain ⟨y, hy, heq⟩ := hr
      obtain ⟨j, hle, hj⟩ := mem_drop_iff.mp hx
      intro hlt
      rw [h.lt hle hy hj hlt] at heq
      contradiction
  | error i =>
      rw [hr.2.2 x hx]
      decide

/-- Before and after a hit on the only element of a kind there is none. -/
theorem only_hit {p : α → Bool} {i : Nat} {x : α} (hx : l[i]? = some x) (hp : p x = true)
    (hcount : (l.filter p).length ≤ 1) :
    (∀ y ∈ l.take i, p y = false) ∧ ∀ y ∈ l.drop (i + 1), p y = false := by
  obtain ⟨hlt, rfl⟩ := List.getElem?_eq_some_iff.mp hx
  rw [← List.take_append_drop i l, List.drop_eq_getElem_cons hlt, List.filter_append,
    List.filter_cons_of_pos hp, List.length_append, List.length_cons] at hcount
  constructor
  · intro y hy
    by_contra hne
    have := List.length_pos_of_mem (List.mem_filter.mpr ⟨hy, by simpa using hne⟩)
    omega
  · intro y hy
    by_contra hne
    have := List.length_pos_of_mem (List.mem_filter.mpr ⟨hy, by simpa using hne⟩)
    omega

/-- A list with nothing of a kind before and after a position has at most one of it. -/
theorem length_filter_le_one {p : α → Bool} {i : Nat} (hbefore : ∀ y ∈ l.take i, p y = false)
    (hafter : ∀ y ∈ l.drop (i + 1), p y = false) : (l.filter p).length ≤ 1 := by
  have hnil : ∀ {l' : List α}, (∀ y ∈ l', p y = false) → l'.filter p = [] := by
    intro l' h
    rw [List.filter_eq_nil_iff]
    intro y hy hp
    rw [h y hy] at hp
    contradiction
  rw [← List.take_append_drop i l, List.filter_append, hnil hbefore, List.nil_append]
  cases hd : l.drop i with
  | nil => simp
  | cons x rest =>
      have hrest : rest = l.drop (i + 1) := by rw [← List.tail_drop, hd, List.tail_cons]
      rw [List.filter_cons, hnil (hrest ▸ hafter)]
      split <;> simp

end Result

theorem insertIdx_eq {l : List α} {i : Nat} (hi : i ≤ l.length) (a : α) :
    l.insertIdx i a = l.take i ++ a :: l.drop i := by
  induction i generalizing l with
  | zero => rfl
  | succ i ih =>
      cases l with
      | nil => contradiction
      | cons x l => rw [List.insertIdx_succ_cons, ih (Nat.le_of_succ_le_succ hi)]; rfl

/-- Inserting between what is to come before and what is to come after keeps a list sorted. -/
theorem pairwise_insertIdx {R : α → α → Prop} {l : List α} {i : Nat} {a : α} (h : l.Pairwise R)
    (hi : i ≤ l.length) (hbefore : ∀ x ∈ l.take i, R x a) (hafter : ∀ x ∈ l.drop i, R a x) :
    (l.insertIdx i a).Pairwise R := by
  have hsplit := h
  rw [← List.take_append_drop i l, List.pairwise_append] at hsplit
  obtain ⟨htake, hdrop, hcross⟩ := hsplit
  rw [insertIdx_eq hi, List.pairwise_append, List.pairwise_cons]
  refine ⟨htake, ⟨hafter, hdrop⟩, ?_⟩
  intro x hx y hy
  rcases List.mem_cons.mp hy with rfl | hy
  · exact hbefore x hx
  · exact hcross x hx y hy

/-! ## an implementation -/

/-- Halve the interval of `size` elements from `base` on. -/
def stdLoop (cmp : α → Ordering) (l : List α) : Nat → Nat → Nat → Nat
  | 0, _, base => base
  | fuel + 1, size, base =>
      if size ≤ 1 then base
      else
        let half := size / 2
        let mid := base + half
        stdLoop cmp l fuel (size - half)
          (match l[mid]? with
          | some x => if cmp x = .gt then base else mid
          | none => base)

/-- `slice::binary_search_by`. -/
def std (cmp : α → Ordering) (l : List α) : Except Nat Nat :=
  match l[stdLoop cmp l l.length l.length 0]? with
  | none => .error 0
  | some x =>
      match cmp x with
      | .eq => .ok (stdLoop cmp l l.length l.length 0)
      | .lt => .error (stdLoop cmp l l.length l.length 0 + 1)
      | .gt => .error (stdLoop cmp l l.length l.length 0)

/-- What the interval leaves out: it starts at an element that is not greater, unless it
starts the list, and what comes after it is greater. -/
structure Interval (cmp : α → Ordering) (l : List α) (size base : Nat) : Prop where
  le : base + size ≤ l.length
  start : base = 0 ∨ ∃ x, l[base]? = some x ∧ cmp x ≠ .gt
  after : ∀ i x, base + size ≤ i → l[i]? = some x → cmp x = .gt

theorem stdLoop_interval {cmp : α → Ordering} {l : List α} (h : Ordered cmp l) {fuel size base : Nat}
    (hfuel : size ≤ fuel + 1) (hsize : 0 < size) (hi : Interval cmp l size base) :
    Interval cmp l 1 (stdLoop cmp l fuel size base) := by
  induction fuel generalizing size base with
  | zero =>
      have hone : size = 1 := by omega
      rw [stdLoop, ← hone]
      exact hi
  | succ fuel ih =>
      rw [stdLoop]
      split
      · next hle =>
        have hone : size = 1 := by omega
        rw [← hone]
        exact hi
      · next hle =>
        apply ih (by omega) (by omega)
        have hmid : base + size / 2 < l.length := by have := hi.le; omega
        rw [List.getElem?_eq_getElem hmid]
        simp only
        have hget : l[base + size / 2]? = some l[base + size / 2] := List.getElem?_eq_getElem hmid
        split
        · next hgt =>
          refine ⟨by have := hi.le; omega, hi.start, ?_⟩
          intro i x hle hx
          exact h.gt (by omega) hget hx hgt
        · next hgt =>
          refine ⟨by have := hi.le; omega, .inr ⟨_, hget, hgt⟩, ?_⟩
          intro i x hle hx
          exact hi.after i x (by omega) hx

/-- The interval that is left is one element. -/
theorem stdLoop_start {cmp : α → Ordering} {l : List α} (h : Ordered cmp l) (hpos : 0 < l.length) :
    Interval cmp l 1 (stdLoop cmp l l.length l.length 0) := by
  refine stdLoop_interval h (Nat.le_succ _) hpos ⟨by omega, .inl rfl, ?_⟩
  intro i x hle hx
  rw [List.getElem?_eq_none (by omega)] at hx
  cases hx

theorem Interval.drop_gt {cmp : α → Ordering} {l : List α} {base : Nat}
    (hi : Interval cmp l 1 base) {i : Nat} (hle : base + 1 ≤ i) {x : α} (hx : x ∈ l.drop i) :
    cmp x = .gt := by
  obtain ⟨j, hj, hget⟩ := mem_drop_iff.mp hx
  exact hi.after j x (Nat.le_trans hle hj) hget

theorem std_correct {cmp : α → Ordering} {l : List α} (h : Ordered cmp l) :
    Correct cmp l (std cmp l) := by
  cases hl : l with
  | nil => simp [std, stdLoop, Correct]
  | cons a rest =>
      rw [← hl]
      have hend := stdLoop_start h (by rw [hl]; exact Nat.succ_pos _)
      unfold std
      obtain ⟨base, hbase⟩ : ∃ base, base = stdLoop cmp l l.length l.length 0 := ⟨_, rfl⟩
      rw [← hbase] at hend ⊢
      have hlt : base < l.length := by have := hend.le; omega
      have hget : l[base]? = some l[base] := List.getElem?_eq_getElem hlt
      rw [hget]
      cases hcmp : cmp l[base] with
      | eq =>
          simp only [hcmp]
          exact ⟨_, hget, hcmp⟩
      | lt =>
          simp only [hcmp]
          refine ⟨by omega, ?_, fun x hx => hend.drop_gt (Nat.le_refl _) hx⟩
          intro x hx
          obtain ⟨j, hj, hjget⟩ := mem_take_iff.mp hx
          exact h.lt (by omega) hjget hget hcmp
      | gt =>
          simp only [hcmp]
          have hzero : base = 0 := by
            rcases hend.start with hzero | ⟨x, hx, hne⟩
            · exact hzero
            · rw [hget] at hx
              cases hx
              contradiction
          subst hzero
          refine ⟨by omega, by simp, ?_⟩
          intro x hx
          obtain ⟨j, hj, hjget⟩ := mem_drop_iff.mp hx
          exact h.gt (Nat.zero_le _) hget hjget hcmp

/-- The search of the Rust library. -/
def stdSearch : Search := ⟨std, std_correct⟩

theorem stdSearch_hitsLast : stdSearch.HitsLast := by
  intro α cmp l i h hrun x hx
  have hpos : 0 < l.length := by
    have := List.length_pos_of_mem hx
    rw [List.length_drop] at this
    omega
  have hi : i = stdLoop cmp l l.length l.length 0 := by
    simp only [stdSearch, std] at hrun
    repeat' split at hrun
    all_goals cases hrun
    rfl
  subst hi
  exact (stdLoop_start h hpos).drop_gt (Nat.le_refl _) hx

end BinarySearch
