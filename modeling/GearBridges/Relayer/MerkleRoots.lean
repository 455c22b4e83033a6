import GearBridges.Lib.Greatest
import GearBridges.Relayer.Accumulator
import Mathlib.Data.Prod.Lex

/-!
# Relayer.MerkleRoots

The buffer of relayed merkle roots: what `find` and `add` do on any sorted buffer, and what the
buffer holds after any sequence of additions, which is the greatest of the roots added so far as
many as it has room for.

`add` computes the position of the new root before it pops the oldest one.  Where the buffer is
full and the new root is older than all of them, that position is behind the end of what is left,
and `Vec::insert` panics (`older_root_panics`).  In a run without such an addition the buffer is
what it is meant to be (`keeps_greatest`).
-/

namespace GearBridges.MessageRelayer

open BinarySearch Transition Greatest

/-- What the roots are ordered by. -/
def RelayedMerkleRoot.key (root : RelayedMerkleRoot) : Nat ×ₗ Nat :=
  toLex (root.authoritySetId, root.block)

theorem RelayedMerkleRoot.key_lt {x y : RelayedMerkleRoot} : x.key < y.key ↔
    x.authoritySetId < y.authoritySetId ∨
      (x.authoritySetId = y.authoritySetId ∧ x.block < y.block) := by
  rw [key, key, Prod.Lex.toLex_lt_toLex]

theorem RelayedMerkleRoot.key_eq {x y : RelayedMerkleRoot} :
    x.key = y.key ↔ x.authoritySetId = y.authoritySetId ∧ x.block = y.block := by
  rw [key, key, toLex_inj, Prod.mk.injEq]

namespace MerkleRoots

variable {search : Search} {self : MerkleRoots}

theorem sorted_iff {l : List RelayedMerkleRoot} :
    Sorted l ↔ (l.map RelayedMerkleRoot.key).Pairwise (· > ·) := by
  rw [List.pairwise_map]
  simp only [gt_iff_lt, RelayedMerkleRoot.key_lt]
  rfl

/-- The comparison that `add` searches with, in terms of keys. -/
theorem compareWith_key {root r : RelayedMerkleRoot} :
    (compareWith root.authoritySetId root.block r = .lt ↔ root.key < r.key) ∧
    (compareWith root.authoritySetId root.block r = .gt ↔ r.key < root.key) ∧
    (compareWith root.authoritySetId root.block r = .eq ↔ r.key = root.key) := by
  rw [compareWith_lt, compareWith_gt, compareWith_eq, RelayedMerkleRoot.key_lt,
    RelayedMerkleRoot.key_lt, RelayedMerkleRoot.key_eq]
  omega

/-! ## add -/

/-- The root has a place: the buffer is not full, or the root is not older than all of them. -/
def Fits (self : MerkleRoots) (root : RelayedMerkleRoot) : Prop :=
  self.list.length < self.capacity ∨ ∃ old ∈ self.list, old.key ≤ root.key

/-- What `add` does: it refuses a root of a stored block, it adds a new root while there is
room, it drops the oldest root for a newer one, and it panics where the root has no place. -/
inductive Added (self : MerkleRoots) (root : RelayedMerkleRoot) :
    Option (MerkleRoots × Except Nat (Option RelayedMerkleRoot)) → Prop
  | duplicate {i : Nat} {old : RelayedMerkleRoot} (hold : self.list[i]? = some old)
      (hkey : old.key = root.key) : Added self root (some (self, .error i))
  | room {list : List RelayedMerkleRoot} (hroom : self.list.length < self.capacity)
      (hsorted : Sorted list) (hperm : list.Perm (root :: self.list)) :
      Added self root (some (⟨list, self.capacity⟩, .ok none))
  | full {front list : List RelayedMerkleRoot} {old : RelayedMerkleRoot}
      (hfull : self.list.length = self.capacity) (hlist : self.list = front ++ [old])
      (hold : old.key < root.key) (hsorted : Sorted list) (hperm : list.Perm (root :: front)) :
      Added self root (some (⟨list, self.capacity⟩, .ok (some old)))
  | panic (hfull : self.list.length = self.capacity)
      (hold : ∀ old ∈ self.list, root.key < old.key) : Added self root none

/-- Inserting at a position that the search gives. -/
theorem sorted_insertIdx {l : List RelayedMerkleRoot} {root : RelayedMerkleRoot} {i : Nat}
    (h : Sorted l) (hi : i ≤ l.length)
    (hbefore : ∀ x ∈ l.take i, compareWith root.authoritySetId root.block x = .lt)
    (hafter : ∀ x ∈ l.drop i, compareWith root.authoritySetId root.block x = .gt) :
    Sorted (l.insertIdx i root) := by
  refine pairwise_insertIdx h hi ?_ ?_
  · intro x hx
    exact RelayedMerkleRoot.key_lt.mp (compareWith_key.1.mp (hbefore x hx))
  · intro x hx
    exact RelayedMerkleRoot.key_lt.mp (compareWith_key.2.1.mp (hafter x hx))

theorem added_add (search : Search) (h : Sorted self.list) (hpos : 1 ≤ self.capacity)
    (hcap : self.list.length ≤ self.capacity) (root : RelayedMerkleRoot) :
    Added self root (self.add search root) := by
  have hcorrect := search.correct (h.ordered root.authoritySetId root.block)
  unfold add
  cases hr : search.run (compareWith root.authoritySetId root.block) self.list with
  | ok i =>
      rw [hr] at hcorrect
      obtain ⟨old, hold, heq⟩ := hcorrect
      exact .duplicate hold (compareWith_key.2.2.mp heq)
  | error i =>
      rw [hr] at hcorrect
      obtain ⟨hle, hbefore, hafter⟩ := hcorrect
      by_cases hroom : self.list.length < self.capacity
      · simp only [if_pos hroom, vecInsert, if_pos hle, Option.map_some]
        exact .room hroom (sorted_insertIdx h hle hbefore hafter) (List.perm_insertIdx _ _ hle)
      · have hfull : self.list.length = self.capacity := by omega
        obtain ⟨front, old, hlist⟩ : ∃ front old, self.list = front ++ [old] :=
          ⟨_, _, (List.dropLast_append_getLast (List.ne_nil_of_length_pos (by omega))).symm⟩
        have hlength : (front ++ [old]).length = front.length + 1 := List.length_append
        simp only [if_neg hroom]
        rw [hlist] at hle hbefore hafter
        simp only [vecInsert, hlist, List.dropLast_concat, List.getLast?_concat]
        by_cases hi : i ≤ front.length
        · rw [if_pos hi, Option.map_some]
          rw [List.take_append_of_le_length hi] at hbefore
          rw [List.drop_append_of_le_length hi] at hafter
          have hfront : Sorted front := (List.pairwise_append.mp (hlist ▸ h)).1
          refine .full hfull hlist ?_ ?_ (List.perm_insertIdx _ _ hi)
          · exact compareWith_key.2.1.mp (hafter old (by simp))
          · exact sorted_insertIdx hfront hi hbefore fun x hx =>
              hafter x (List.mem_append_left _ hx)
        · -- the position is the end of the buffer as it was before the pop
          rw [if_neg hi, Option.map_none]
          refine .panic hfull ?_
          intro x hx
          rw [List.take_of_length_le (by omega)] at hbefore
          exact compareWith_key.1.mp (hbefore x (hlist ▸ hx))

/-- Adding a root panics exactly where it has no place. -/
theorem add_isSome_iff (search : Search) (h : Sorted self.list) (hpos : 1 ≤ self.capacity)
    (hcap : self.list.length ≤ self.capacity) (root : RelayedMerkleRoot) :
    (self.add search root).isSome ↔ self.Fits root := by
  have hadd := added_add search h hpos hcap root
  generalize self.add search root = result at hadd
  cases hadd with
  | duplicate hold hkey =>
      exact iff_of_true rfl (.inr ⟨_, List.mem_of_getElem? hold, le_of_eq hkey⟩)
  | room hroom => exact iff_of_true rfl (.inl hroom)
  | full hfull hlist hold =>
      exact iff_of_true rfl (.inr ⟨_, by rw [hlist]; simp, le_of_lt hold⟩)
  | panic hfull hold =>
      refine iff_of_false (by simp) ?_
      rintro (hroom | ⟨old, hmem, hle⟩)
      · omega
      · exact absurd (hold old hmem) (not_lt_of_ge hle)

/-- A root whose block is stored is refused, and nothing changes. -/
theorem add_duplicate (search : Search) (h : Sorted self.list) {root : RelayedMerkleRoot}
    (hkey : root.key ∈ self.list.map RelayedMerkleRoot.key) :
    ∃ i old, self.list[i]? = some old ∧ old.key = root.key ∧
      self.add search root = some (self, .error i) := by
  obtain ⟨x, hx, hxkey⟩ := List.mem_map.mp hkey
  have hcorrect := search.correct (h.ordered root.authoritySetId root.block)
  unfold add
  cases hr : search.run (compareWith root.authoritySetId root.block) self.list with
  | ok i =>
      rw [hr] at hcorrect
      obtain ⟨old, hold, heq⟩ := hcorrect
      exact ⟨i, old, hold, compareWith_key.2.2.mp heq, rfl⟩
  | error i =>
      rw [hr] at hcorrect
      obtain ⟨-, hbefore, hafter⟩ := hcorrect
      have heq := compareWith_key.2.2.mpr hxkey
      rw [← List.take_append_drop i self.list, List.mem_append] at hx
      rcases hx with hx | hx
      · rw [hbefore x hx] at heq
        contradiction
      · rw [hafter x hx] at heq
        contradiction

/-! ## find -/

/-- The stored roots that can stand for a block of an authority set. -/
def Candidate (self : MerkleRoots) (authoritySetId blockNumber : Nat)
    (root : RelayedMerkleRoot) : Prop :=
  root ∈ self.list ∧ root.authoritySetId = authoritySetId ∧ blockNumber ≤ root.block

variable {authoritySetId blockNumber : Nat} {root : RelayedMerkleRoot}

/-- Stored roots of one block are one root. -/
theorem Sorted.eq_of_key (h : Sorted self.list) {x y : RelayedMerkleRoot} (hx : x ∈ self.list)
    (hy : y ∈ self.list) (hkey : x.key = y.key) : x = y := by
  have hnodup : (self.list.map RelayedMerkleRoot.key).Nodup := (sorted_iff.mp h).imp ne_of_gt
  exact List.inj_on_of_nodup_map hnodup hx hy hkey

theorem find_eq_none (h : Sorted self.list)
    (hfind : self.find search authoritySetId blockNumber = none) (root : RelayedMerkleRoot) :
    ¬ self.Candidate authoritySetId blockNumber root := by
  rintro ⟨hroot, hcovers⟩
  exact find_none (m := ⟨⟨0, 0, 0, []⟩, blockNumber, 0, authoritySetId⟩) h hfind hroot hcovers

/-- What `find` returns is a candidate, and no candidate is of an earlier block. -/
theorem find_least (h : Sorted self.list)
    (hfind : self.find search authoritySetId blockNumber = some root) :
    self.Candidate authoritySetId blockNumber root ∧
      ∀ r, self.Candidate authoritySetId blockNumber r → root.block ≤ r.block := by
  refine ⟨find_some (m := ⟨⟨0, 0, 0, []⟩, blockNumber, 0, authoritySetId⟩) h hfind, ?_⟩
  rintro r ⟨hr, hset, hblock⟩
  have hcorrect := search.correct (h.ordered authoritySetId blockNumber)
  unfold find at hfind
  cases hrun : search.run (compareWith authoritySetId blockNumber) self.list with
  | ok i =>
      rw [hrun] at hcorrect hfind
      obtain ⟨x, hx, heq⟩ := hcorrect
      cases hx.symm.trans hfind
      rw [compareWith_eq] at heq
      omega
  | error i =>
      rw [hrun] at hcorrect hfind
      obtain ⟨-, -, hafter⟩ := hcorrect
      simp only at hfind
      repeat' split at hfind
      all_goals cases hfind
      rename_i hget hrootset
      rw [not_not] at hrootset
      -- a candidate is not behind the position, so the root is the last candidate of the list
      obtain ⟨j, hj, hjget⟩ : ∃ j, j < i ∧ self.list[j]? = some r := by
        rw [← mem_take_iff]
        rw [← List.take_append_drop i self.list, List.mem_append] at hr
        refine hr.resolve_right ?_
        intro hdrop
        have := hafter r hdrop
        rw [compareWith_gt] at this
        omega
      rcases Nat.lt_or_eq_of_le (Nat.le_sub_one_of_lt hj) with hlt | rfl
      · obtain ⟨hjl, rfl⟩ := List.getElem?_eq_some_iff.mp hjget
        obtain ⟨hil, rfl⟩ := List.getElem?_eq_some_iff.mp hget
        have := List.pairwise_iff_getElem.mp h j (i - 1) hjl hil hlt
        omega
      · cases hget.symm.trans hjget
        exact Nat.le_refl _

/-- `find` returns the candidate of the earliest block. -/
theorem find_eq_some_iff (h : Sorted self.list) :
    self.find search authoritySetId blockNumber = some root ↔
      self.Candidate authoritySetId blockNumber root ∧
        ∀ r, self.Candidate authoritySetId blockNumber r → root.block ≤ r.block := by
  constructor
  · exact find_least h
  · rintro ⟨hroot, hleast⟩
    cases hfind : self.find search authoritySetId blockNumber with
    | none => exact absurd hroot (find_eq_none h hfind root)
    | some found =>
        obtain ⟨hfound, hmin⟩ := find_least h hfind
        have hblock := Nat.le_antisymm (hmin root hroot) (hleast found hfound)
        have hkey := RelayedMerkleRoot.key_eq.mpr ⟨hfound.2.1.trans hroot.2.1.symm, hblock⟩
        rw [h.eq_of_key hfound.1 hroot.1 hkey]

theorem find_eq_none_iff (h : Sorted self.list) :
    self.find search authoritySetId blockNumber = none ↔
      ∀ root, ¬ self.Candidate authoritySetId blockNumber root := by
  refine ⟨find_eq_none h, ?_⟩
  intro hnone
  rw [Option.eq_none_iff_forall_ne_some]
  intro root hfind
  exact hnone root (find_least h hfind).1

/-! ## runs -/

/-- The buffer and the roots `add` has been called with. -/
structure AddRun where
  merkleRoots : MerkleRoots
  added : List RelayedMerkleRoot

def AddRun.start (capacity : Nat) : AddRun := ⟨.new capacity, []⟩

/-- One call of `add`; `none` is a panic. -/
def addStep (search : Search) (w : AddRun) (root : RelayedMerkleRoot) : Option AddRun :=
  (w.merkleRoots.add search root).map fun (merkleRoots, _) => ⟨merkleRoots, root :: w.added⟩

/-- The keys of the roots added so far. -/
def AddRun.keys (w : AddRun) : Finset (Nat ×ₗ Nat) :=
  (w.added.map RelayedMerkleRoot.key).toFinset

theorem AddRun.keys_cons (merkleRoots : MerkleRoots) (root : RelayedMerkleRoot)
    (added : List RelayedMerkleRoot) :
    (AddRun.mk merkleRoots (root :: added)).keys =
      insert root.key (added.map RelayedMerkleRoot.key).toFinset := by
  rw [keys, List.map_cons, List.toFinset_cons]

/-- What is kept from one call of `add` to the next. -/
structure Kept (capacity : Nat) (w : AddRun) : Prop where
  capacityKept : w.merkleRoots.capacity = capacity
  stored : ∀ r ∈ w.merkleRoots.list, r ∈ w.added
  holds : Holds capacity w.keys (w.merkleRoots.list.map RelayedMerkleRoot.key)

theorem Kept.sorted {capacity : Nat} {w : AddRun} (h : Kept capacity w) :
    Sorted w.merkleRoots.list := sorted_iff.mpr h.holds.sorted

theorem Kept.bounded {capacity : Nat} {w : AddRun} (h : Kept capacity w) :
    w.merkleRoots.list.length ≤ w.merkleRoots.capacity := by
  have := h.holds.bounded
  rwa [List.length_map, ← h.capacityKept] at this

theorem Kept.start (capacity : Nat) : Kept capacity (.start capacity) :=
  ⟨rfl, by simp [AddRun.start, new], Holds.empty capacity⟩

theorem Kept.step {capacity : Nat} {w w' : AddRun} {root : RelayedMerkleRoot}
    (hpos : 1 ≤ capacity) (h : Kept capacity w) (hstep : addStep search w root = some w') :
    Kept capacity w' := by
  have hadd := added_add search h.sorted (h.capacityKept ▸ hpos) h.bounded root
  obtain ⟨⟨merkleRoots, result⟩, hresult, rfl⟩ := Option.map_eq_some_iff.mp hstep
  rw [hresult] at hadd
  cases hadd with
  | duplicate hold hkey =>
      refine ⟨h.capacityKept, fun r hr => List.mem_cons_of_mem _ (h.stored r hr), ?_⟩
      rw [AddRun.keys_cons]
      exact h.holds.insert_of_mem (hkey ▸ List.mem_map_of_mem (List.mem_of_getElem? hold))
  | room hroom hsorted hperm =>
      refine ⟨h.capacityKept, ?_, ?_⟩
      · intro r hr
        rw [hperm.mem_iff, List.mem_cons] at hr
        exact List.mem_cons.mpr (hr.imp_right (h.stored r))
      · rw [AddRun.keys_cons]
        refine h.holds.insert_of_room ?_ (sorted_iff.mp hsorted) (hperm.map _)
        rwa [List.length_map, ← h.capacityKept]
  | full hfull hlist hold hsorted hperm =>
      refine ⟨h.capacityKept, ?_, ?_⟩
      · intro r hr
        rw [hperm.mem_iff, List.mem_cons] at hr
        refine List.mem_cons.mpr (hr.imp_right ?_)
        exact fun hr => h.stored r (hlist ▸ List.mem_append_left _ hr)
      · rw [AddRun.keys_cons]
        have hholds := h.holds
        rw [hlist, List.map_append, List.map_singleton] at hholds
        refine hholds.insert_of_full ?_ hold (sorted_iff.mp hsorted) (hperm.map _)
        rw [← List.map_singleton, ← List.map_append, List.length_map, ← hlist, hfull,
          h.capacityKept]

/-- What the buffer is meant to be after any sequence of additions. -/
structure KeepsGreatest (search : Search) (capacity : Nat) (w : AddRun) : Prop where
  /-- The stored roots are strictly decreasing. -/
  sorted : (w.merkleRoots.list.map RelayedMerkleRoot.key).Pairwise (· > ·)
  bounded : w.merkleRoots.list.length ≤ capacity
  stored : ∀ r ∈ w.merkleRoots.list, r ∈ w.added
  greatest : w.merkleRoots.list.map RelayedMerkleRoot.key = greatest capacity w.keys
  duplicate : ∀ root : RelayedMerkleRoot,
    root.key ∈ w.merkleRoots.list.map RelayedMerkleRoot.key → ∃ i old,
      w.merkleRoots.list[i]? = some old ∧ old.key = root.key ∧
      w.merkleRoots.add search root = some (w.merkleRoots, .error i)
  found : ∀ authoritySetId blockNumber root,
    w.merkleRoots.find search authoritySetId blockNumber = some root ↔
      w.merkleRoots.Candidate authoritySetId blockNumber root ∧
      ∀ r, w.merkleRoots.Candidate authoritySetId blockNumber r → root.block ≤ r.block
  notFound : ∀ authoritySetId blockNumber,
    w.merkleRoots.find search authoritySetId blockNumber = none ↔
      ∀ root, ¬ w.merkleRoots.Candidate authoritySetId blockNumber root

theorem Kept.keepsGreatest {capacity : Nat} {w : AddRun} (h : Kept capacity w) :
    KeepsGreatest search capacity w where
  sorted := h.holds.sorted
  bounded := h.capacityKept ▸ h.bounded
  stored := h.stored
  greatest := h.holds.eq_greatest
  duplicate := fun _ => add_duplicate search h.sorted
  found := fun _ _ _ => find_eq_some_iff h.sorted
  notFound := fun _ _ => find_eq_none_iff h.sorted

/-- **The buffer holds the greatest roots.**  In every run in which each root has a place, the
buffer is what it is meant to be, and the next addition goes through if and only if its root has
a place. -/
theorem keeps_greatest (search : Search) (capacity : Nat) (hpos : 1 ≤ capacity) (w : AddRun)
    (h : Reachable (addStep search) (fun w root => w.merkleRoots.Fits root)
      (· = .start capacity) w) :
    KeepsGreatest search capacity w ∧
      ∀ root, (addStep search w root).isSome ↔ w.merkleRoots.Fits root := by
  have hkept : Kept capacity w := by
    refine h.invariant (I := Kept capacity) ?_ ?_
    · intro w hw
      exact hw ▸ .start capacity
    · intro w root w' hw _ hstep
      exact hw.step hpos hstep
  refine ⟨hkept.keepsGreatest, ?_⟩
  intro root
  rw [addStep, Option.isSome_map]
  exact add_isSome_iff search hkept.sorted (hkept.capacityKept ▸ hpos) hkept.bounded root

instance (self : MerkleRoots) (root : RelayedMerkleRoot) : Decidable (self.Fits root) :=
  inferInstanceAs (Decidable (_ ∨ _))

/-- A buffer of two that has dropped a root. -/
theorem keeps_greatest_two : ∃ w, KeepsGreatest stdSearch 2 w ∧
    w.merkleRoots.list = [sampleRoot 9, sampleRoot 7] ∧ w.added.length = 4 := by
  obtain ⟨w, hw, hr⟩ := @exists_reachable_of_exec _ _ (addStep stdSearch)
    (fun w root => w.merkleRoots.Fits root) _ (· = .start 2) (.start 2) rfl
    [sampleRoot 5, sampleRoot 7, sampleRoot 7, sampleRoot 9]
    (fun w => decide (w.merkleRoots.list = [sampleRoot 9, sampleRoot 7]) &&
      decide (w.added.length = 4))
    (by decide +kernel)
  simp only [Bool.and_eq_true, decide_eq_true_eq] at hr
  exact ⟨w, (keeps_greatest stdSearch 2 (by decide) w hw).1, hr⟩

/-- A root that is older than all of a full buffer is not left out: adding it panics. -/
theorem older_root_panics : ¬ ∀ capacity, 1 ≤ capacity → ∀ w,
    Reachable (addStep stdSearch) free (· = .start capacity) w →
      ∀ root, (addStep stdSearch w root).isSome := by
  intro hclaim
  obtain ⟨w, hw, hr⟩ := @exists_reachable_of_exec _ _ (addStep stdSearch) free _
    (· = .start 1) (.start 1) rfl [sampleRoot 5]
    (fun w => (addStep stdSearch w (sampleRoot 3)).isNone) (by decide +kernel)
  rw [Option.isNone_iff_eq_none] at hr
  have hsome := hclaim 1 (by decide) w hw (sampleRoot 3)
  rw [hr] at hsome
  contradiction

end MerkleRoots

end GearBridges.MessageRelayer
