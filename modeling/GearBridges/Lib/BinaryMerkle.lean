import Mathlib.Data.List.Basic

/-!
# Lib.BinaryMerkle

The binary Merkle tree over a list of leaves in which every level pairs its
nodes from left to right and an odd last node is promoted unchanged to the
next level.  Everything is stated for an arbitrary node type and an arbitrary
two-argument hash `h`:

* `levelAt h n leaves` — the `n`-th level above the leaves;
* `root h leaves` — the single node of the last level;
* `siblingPath h leaves i` — the proof of leaf `i`: its sibling at every level
  that gives it one, a promoted node contributing nothing;
* `treePairs h leaves` — all pairs that are hashed while building the tree.

`CollisionFreeOn` is the assumption made about a hash function: two of the
listed inputs never collide.  (An everywhere injective function into a finite
digest type does not exist, so the assumption always names its inputs.)
-/

namespace BinaryMerkle

variable {D : Type*}

/-- The function does not collide on the listed inputs. -/
def CollisionFreeOn {α β : Type*} (f : α → β) (inputs : List α) : Prop :=
  ∀ x ∈ inputs, ∀ y ∈ inputs, f x = f y → x = y

instance {α β : Type*} [DecidableEq α] [DecidableEq β] (f : α → β) (inputs : List α) :
    Decidable (CollisionFreeOn f inputs) :=
  inferInstanceAs (Decidable (∀ x ∈ inputs, ∀ y ∈ inputs, f x = f y → x = y))

theorem CollisionFreeOn.mono {α β : Type*} {f : α → β} {inputs inputs' : List α}
    (h : CollisionFreeOn f inputs') (hsubset : inputs ⊆ inputs') : CollisionFreeOn f inputs :=
  fun x hx y hy => h x (hsubset hx) y (hsubset hy)

/-! ## levels -/

/-- One level up: neighbours are hashed pairwise, an odd last node is
promoted. -/
def nextLevel (h : D → D → D) : List D → List D
  | a :: b :: rest => h a b :: nextLevel h rest
  | [a] => [a]
  | [] => []

/-- The pairs hashed while building the next level. -/
def levelPairs : List D → List (D × D)
  | a :: b :: rest => (a, b) :: levelPairs rest
  | _ => []

/-- The level `n` steps above the given one. -/
def levelAt (h : D → D → D) : Nat → List D → List D
  | 0, l => l
  | n + 1, l => levelAt h n (nextLevel h l)

/-- The root: after as many steps as there are leaves one node is left. -/
def root (h : D → D → D) (leaves : List D) : Option D :=
  (levelAt h leaves.length leaves).head?

/-- The pairs hashed during the first `n` levels. -/
def pairsUpTo (h : D → D → D) : Nat → List D → List (D × D)
  | 0, _ => []
  | n + 1, l => levelPairs l ++ pairsUpTo h n (nextLevel h l)

/-- All pairs hashed while building the tree. -/
def treePairs (h : D → D → D) (leaves : List D) : List (D × D) :=
  pairsUpTo h leaves.length leaves

/-! ## sibling paths -/

/-- The node that position `i` is paired with at its level, if there is one. -/
def sibling (l : List D) (i : Nat) : Option D :=
  if i % 2 = 1 then l[i - 1]? else l[i + 1]?

/-- The siblings met during the first `n` levels. -/
def pathUpTo (h : D → D → D) : Nat → List D → Nat → List D
  | 0, _, _ => []
  | n + 1, l, i => (sibling l i).toList ++ pathUpTo h n (nextLevel h l) (i / 2)

/-- The proof of leaf `i`, from the leaf upwards. -/
def siblingPath (h : D → D → D) (leaves : List D) (i : Nat) : List D :=
  pathUpTo h leaves.length leaves i

/-! ## lengths -/

@[simp] theorem length_nextLevel (h : D → D → D) (l : List D) :
    (nextLevel h l).length = (l.length + 1) / 2 := by
  induction l using nextLevel.induct with
  | case1 a b rest ih => simp only [nextLevel, List.length_cons, ih]; omega
  | case2 a => simp [nextLevel]
  | case3 => simp [nextLevel]

/-- Level `n` of a tree with at most `n + 1` leaves has at most one node. -/
theorem length_levelAt_le_one (h : D → D → D) (n : Nat) (l : List D) (hl : l.length ≤ n + 1) :
    (levelAt h n l).length ≤ 1 := by
  induction n generalizing l with
  | zero => simpa [levelAt] using hl
  | succ n ih =>
      refine ih (nextLevel h l) ?_
      rw [length_nextLevel]
      omega

/-! ## what a node of the next level is -/

/-- A node with two children is their hash. -/
theorem getElem?_nextLevel_pair (h : D → D → D) (l : List D) (i : Nat) (a b : D)
    (ha : l[2 * i]? = some a) (hb : l[2 * i + 1]? = some b) :
    (nextLevel h l)[i]? = some (h a b) := by
  induction l using nextLevel.induct generalizing i with
  | case1 x y rest ih =>
      cases i with
      | zero => simp_all [nextLevel]
      | succ i =>
          have e₁ : 2 * (i + 1) = 2 * i + 1 + 1 := by omega
          have e₂ : 2 * (i + 1) + 1 = 2 * i + 1 + 1 + 1 := by omega
          rw [e₁, List.getElem?_cons_succ, List.getElem?_cons_succ] at ha
          rw [e₂, List.getElem?_cons_succ, List.getElem?_cons_succ] at hb
          rw [nextLevel, List.getElem?_cons_succ]
          exact ih i ha hb
  | case2 x =>
      rw [List.getElem?_cons_succ] at hb
      simp at hb
  | case3 => simp at hb

/-- An odd last node is promoted. -/
theorem getElem?_nextLevel_promoted (h : D → D → D) (l : List D) (i : Nat)
    (hi : 2 * i + 1 = l.length) : (nextLevel h l)[i]? = l[2 * i]? := by
  induction l using nextLevel.induct generalizing i with
  | case1 x y rest ih =>
      cases i with
      | zero => simp at hi
      | succ i =>
          have e : 2 * (i + 1) = 2 * i + 1 + 1 := by omega
          rw [e, nextLevel, List.getElem?_cons_succ, List.getElem?_cons_succ,
            List.getElem?_cons_succ]
          refine ih i ?_
          simp only [List.length_cons] at hi
          omega
  | case2 x =>
      have : i = 0 := by rw [List.length_singleton] at hi; omega
      subst this
      simp [nextLevel]
  | case3 => simp at hi

/-! ## the nodes of a tree -/

/-- A node of the tree: a leaf or the hash of one of its pairs. -/
def IsNode (h : D → D → D) (leaves : List D) (pairs : List (D × D)) (x : D) : Prop :=
  x ∈ leaves ∨ ∃ p ∈ pairs, x = h p.1 p.2

/-- The next level consists of promoted nodes and hashed pairs. -/
theorem mem_nextLevel {h : D → D → D} {l : List D} {x : D} (hx : x ∈ nextLevel h l) :
    x ∈ l ∨ ∃ p ∈ levelPairs l, x = h p.1 p.2 := by
  induction l using nextLevel.induct with
  | case1 a b rest ih =>
      simp only [nextLevel, List.mem_cons] at hx
      cases hx with
      | inl he => exact .inr ⟨(a, b), by simp [levelPairs], he⟩
      | inr ht =>
          cases ih ht with
          | inl hm => exact .inl (by simp [hm])
          | inr hp =>
              obtain ⟨p, hp, he⟩ := hp
              exact .inr ⟨p, by simp [levelPairs, hp], he⟩
  | case2 a => exact .inl (by simpa [nextLevel] using hx)
  | case3 => simp [nextLevel] at hx

/-- Both components of a hashed pair are nodes of the level. -/
theorem mem_of_mem_levelPairs {l : List D} {p : D × D} (hp : p ∈ levelPairs l) :
    p.1 ∈ l ∧ p.2 ∈ l := by
  induction l using levelPairs.induct with
  | case1 a b rest ih =>
      simp only [levelPairs, List.mem_cons] at hp
      cases hp with
      | inl he => subst he; simp
      | inr ht =>
          obtain ⟨h₁, h₂⟩ := ih ht
          exact ⟨by simp [h₁], by simp [h₂]⟩
  | case2 l hl => simp [levelPairs] at hp

/-- A node of the tree above the first level is a node of the whole tree. -/
theorem IsNode.of_nextLevel {h : D → D → D} {l : List D} {pairs : List (D × D)} {x : D}
    (hx : IsNode h (nextLevel h l) pairs x) : IsNode h l (levelPairs l ++ pairs) x := by
  cases hx with
  | inl hm =>
      cases mem_nextLevel hm with
      | inl hl => exact .inl hl
      | inr hp =>
          obtain ⟨p, hp, he⟩ := hp
          exact .inr ⟨p, List.mem_append_left _ hp, he⟩
  | inr hp =>
      obtain ⟨p, hp, he⟩ := hp
      exact .inr ⟨p, List.mem_append_right _ hp, he⟩

/-- Both children of a hashed pair are nodes of the tree. -/
theorem isNode_of_mem_pairsUpTo {h : D → D → D} {n : Nat} {l : List D} {p : D × D}
    (hp : p ∈ pairsUpTo h n l) :
    IsNode h l (pairsUpTo h n l) p.1 ∧ IsNode h l (pairsUpTo h n l) p.2 := by
  induction n generalizing l with
  | zero => simp [pairsUpTo] at hp
  | succ n ih =>
      simp only [pairsUpTo, List.mem_append] at hp ⊢
      cases hp with
      | inl hl =>
          obtain ⟨h₁, h₂⟩ := mem_of_mem_levelPairs hl
          exact ⟨.inl h₁, .inl h₂⟩
      | inr hr =>
          obtain ⟨h₁, h₂⟩ := ih hr
          exact ⟨h₁.of_nextLevel, h₂.of_nextLevel⟩

/-- Every node of a level is a node of the tree. -/
theorem isNode_of_mem_levelAt {h : D → D → D} {n : Nat} {l : List D} {x : D}
    (hx : x ∈ levelAt h n l) : IsNode h l (pairsUpTo h n l) x := by
  induction n generalizing l with
  | zero => exact .inl hx
  | succ n ih => exact (ih hx).of_nextLevel

/-- The root is a node of the tree. -/
theorem isNode_root {h : D → D → D} {leaves : List D} {r : D} (hr : root h leaves = some r) :
    IsNode h leaves (treePairs h leaves) r :=
  isNode_of_mem_levelAt (List.mem_of_mem_head? hr)

end BinaryMerkle
