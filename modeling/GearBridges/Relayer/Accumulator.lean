import GearBridges.Lib.BinarySearch
import GearBridges.Lib.Transition
import Mathlib.Data.List.Perm.Basic

/-!
# Relayer.Accumulator

The accumulator of the Gear → Ethereum relayer: messages and relayed merkle roots come over
two channels in any order, and a message is sent on with a root that covers it, be it the
message or the root that comes first.

Waiting messages are kept in a sorted vector that may hold several messages of one block.
`drain` looks for the ends of its range by binary search and takes a hit for the only one:
where several messages are equal to the end it looks for, those on the wrong side of the hit
stay behind (`message_left_behind`).  As long as the hit is unambiguous every message is sent
on exactly once (`exactly_once`).
-/

namespace GearBridges.MessageRelayer

open BinarySearch Transition

/-! ## data -/

/-- A message of the bridge. -/
structure Message where
  nonceLe : BitVec 256
  source : BitVec 256
  destination : BitVec 160
  payload : List UInt8
deriving DecidableEq

/-- A message with the block it was queued in. -/
structure MessageInBlock where
  message : Message
  /-- `GearBlockNumber`. -/
  block : Nat
  blockHash : BitVec 256
  /-- `AuthoritySetId`. -/
  authoritySetId : Nat
deriving DecidableEq

/-- A merkle root that has been relayed to Ethereum. -/
structure RelayedMerkleRoot where
  block : Nat
  blockHash : BitVec 256
  authoritySetId : Nat
  merkleRoot : BitVec 256
deriving DecidableEq

/-- `Vec::insert`; `none` is a panic. -/
def vecInsert {α : Type} (l : List α) (i : Nat) (a : α) : Option (List α) :=
  if i ≤ l.length then some (l.insertIdx i a) else none

/-- `Vec::drain(start..end)`: what is left and what is taken out; `none` is a panic. -/
def vecDrain {α : Type} (l : List α) (start stop : Nat) : Option (List α × List α) :=
  if start ≤ stop ∧ stop ≤ l.length then
    some (l.take start ++ l.drop stop, (l.take stop).drop start)
  else none

/-! ## Messages -/

/-- The waiting messages. -/
structure Messages where
  list : List MessageInBlock
  capacity : Nat

namespace Messages

def new (capacity : Nat) : Messages := ⟨[], capacity⟩

def compare (authoritySetId blockNumber authoritySetIdNew blockNumberNew : Nat) : Ordering :=
  if authoritySetId = authoritySetIdNew then Ord.compare blockNumber blockNumberNew
  else Ord.compare authoritySetId authoritySetIdNew

/-- The comparison of the stored messages with an authority set id and a block. -/
def compareWith (authoritySetId blockNumber : Nat) (message : MessageInBlock) : Ordering :=
  compare message.authoritySetId message.block authoritySetId blockNumber

variable (search : Search)

/-- Add a message; it is rejected when the vector is full.  The outer `none` is a panic. -/
def add (self : Messages) (messageNew : MessageInBlock) : Option (Messages × Option Unit) :=
  if self.capacity ≤ self.list.length then some (self, none)
  else
    (vecInsert self.list (position (search.run
      (compareWith messageNew.authoritySetId messageNew.block) self.list)) messageNew).map
      fun list => ({ self with list }, some ())

/-- Where the range of `drain` ends. -/
def indexEnd (self : Messages) (merkleRoot : RelayedMerkleRoot) : Nat :=
  match search.run (compareWith merkleRoot.authoritySetId merkleRoot.block) self.list with
  | .ok i => i + 1
  | .error i => i

/-- Where the range of `drain` starts. -/
def indexStart (self : Messages) (merkleRoot : RelayedMerkleRoot) : Nat :=
  position (search.run (compareWith merkleRoot.authoritySetId 0) self.list)

/-- Take out the messages that the root covers; `none` is a panic. -/
def drain (self : Messages) (merkleRoot : RelayedMerkleRoot) :
    Option (Messages × List MessageInBlock) :=
  (vecDrain self.list (self.indexStart search merkleRoot) (self.indexEnd search merkleRoot)).map
    fun (list, drained) => ({ self with list }, drained)

end Messages

/-! ## MerkleRoots -/

/-- The roots received so far, the newest first. -/
structure MerkleRoots where
  list : List RelayedMerkleRoot
  capacity : Nat

namespace MerkleRoots

def new (capacity : Nat) : MerkleRoots := ⟨[], capacity⟩

def compare (authoritySetId blockNumber authoritySetIdNew blockNumberNew : Nat) : Ordering :=
  if authoritySetIdNew = authoritySetId then Ord.compare blockNumberNew blockNumber
  else Ord.compare authoritySetIdNew authoritySetId

/-- The comparison of the stored roots with an authority set id and a block. -/
def compareWith (authoritySetId blockNumber : Nat) (root : RelayedMerkleRoot) : Ordering :=
  compare root.authoritySetId root.block authoritySetId blockNumber

variable (search : Search)

/-- The root of the block, or the next newer one of the authority set. -/
def find (self : MerkleRoots) (authoritySetId blockNumber : Nat) : Option RelayedMerkleRoot :=
  match search.run (compareWith authoritySetId blockNumber) self.list with
  | .ok i => self.list[i]?
  | .error i =>
      if i = 0 then none
      else match self.list[i - 1]? with
        | none => none
        | some result => if result.authoritySetId ≠ authoritySetId then none else some result

/-- Add a root.  `error i`: there is already a root with the same authority set id and block;
`ok none`: the root is new; `ok (some old)`: the root is new and `old` has made room for it.
The outer `none` is a panic. -/
def add (self : MerkleRoots) (rootNew : RelayedMerkleRoot) :
    Option (MerkleRoots × Except Nat (Option RelayedMerkleRoot)) :=
  match search.run (compareWith rootNew.authoritySetId rootNew.block) self.list with
  | .ok i => some (self, .error i)
  | .error i =>
      if self.list.length < self.capacity then
        (vecInsert self.list i rootNew).map fun list => ({ self with list }, .ok none)
      else
        (vecInsert self.list.dropLast i rootNew).map fun list =>
          ({ self with list }, .ok self.list.getLast?)

end MerkleRoots

/-! ## run_inner -/

/-- The accumulator; its metrics are left out. -/
structure Accumulator where
  messages : Messages
  merkleRoots : MerkleRoots

def Accumulator.new : Accumulator := ⟨.new 10_000, .new 100⟩

/-- What `select` picks from the two channels. -/
inductive Event where
  | message (message : MessageInBlock)
  | merkleRoot (merkleRoot : RelayedMerkleRoot)

/-- The messages that wait for a root that is dropped are stuck and dropped with it. -/
def dropStuck (search : Search) (messages : Messages) :
    Option RelayedMerkleRoot → Option Messages
  | none => some messages
  | some merkleRootOld => (messages.drain search merkleRootOld).map Prod.fst

/-- One turn of the loop of `run_inner`, with what it sends to `messages_out`; `none` is a
panic.  When one of the channels is closed the loop ends.  The receiver of `messages_out` is
there; a turn whose send fails because the receiver was dropped is left out. -/
def runInner (search : Search) (this : Accumulator) :
    Event → Option (Accumulator × List (MessageInBlock × RelayedMerkleRoot))
  | .message message =>
      match this.merkleRoots.find search message.authoritySetId message.block with
      | some merkleRoot => some (this, [(message, merkleRoot)])
      | none => (this.messages.add search message).map fun (messages, _) =>
          ({ this with messages }, [])
  | .merkleRoot merkleRoot =>
      match this.merkleRoots.add search merkleRoot with
      | none => none
      | some (_, .error _) => some (this, [])
      | some (merkleRoots, .ok merkleRootOld) =>
          match dropStuck search this.messages merkleRootOld with
          | none => none
          | some messages => (messages.drain search merkleRoot).map fun (messages, drained) =>
              (⟨messages, merkleRoots⟩, drained.map (·, merkleRoot))

/-- The root can be used to prove the message. -/
def RelayedMerkleRoot.Covers (root : RelayedMerkleRoot) (message : MessageInBlock) : Prop :=
  root.authoritySetId = message.authoritySetId ∧ message.block ≤ root.block

/-! ## what the two vectors do -/

namespace Messages

theorem compare_lt {s b s' b' : Nat} : compare s b s' b' = .lt ↔ s < s' ∨ (s = s' ∧ b < b') := by
  unfold compare
  split
  · rw [Nat.compare_eq_lt]
    omega
  · rw [Nat.compare_eq_lt]
    omega

theorem compare_gt {s b s' b' : Nat} : compare s b s' b' = .gt ↔ s' < s ∨ (s = s' ∧ b' < b) := by
  unfold compare
  split
  · rw [Nat.compare_eq_gt]
    omega
  · rw [Nat.compare_eq_gt]
    omega

theorem compare_eq {s b s' b' : Nat} : compare s b s' b' = .eq ↔ s = s' ∧ b = b' := by
  unfold compare
  split
  · rw [Nat.compare_eq_eq]
    omega
  · rw [Nat.compare_eq_eq]
    omega

theorem compareWith_lt {s b : Nat} {m : MessageInBlock} :
    compareWith s b m = .lt ↔ m.authoritySetId < s ∨ (m.authoritySetId = s ∧ m.block < b) :=
  compare_lt

theorem compareWith_gt {s b : Nat} {m : MessageInBlock} :
    compareWith s b m = .gt ↔ s < m.authoritySetId ∨ (m.authoritySetId = s ∧ b < m.block) :=
  compare_gt

theorem compareWith_eq {s b : Nat} {m : MessageInBlock} :
    compareWith s b m = .eq ↔ m.authoritySetId = s ∧ m.block = b :=
  compare_eq

/-- Sorted by authority set and block, with messages of one block next to each other. -/
def Sorted (l : List MessageInBlock) : Prop :=
  l.Pairwise fun x y => x.authoritySetId < y.authoritySetId ∨
    (x.authoritySetId = y.authoritySetId ∧ x.block ≤ y.block)

theorem Sorted.ordered {l : List MessageInBlock} (h : Sorted l) (s b : Nat) :
    Ordered (compareWith s b) l := by
  refine h.imp ?_
  intro x y hxy
  simp only [compareWith_lt, compareWith_gt]
  omega

variable {search : Search} {self : Messages}

theorem add_spec (search : Search) (h : Sorted self.list) (hroom : self.list.length < self.capacity)
    (message : MessageInBlock) : ∃ list, self.add search message = some (⟨list, self.capacity⟩, some ()) ∧
      Sorted list ∧ list.Perm (message :: self.list) := by
  have hordered := h.ordered message.authoritySetId message.block
  have hcorrect := search.correct hordered
  unfold add
  rw [if_neg (Nat.not_le.mpr hroom), vecInsert, if_pos hcorrect.position_le]
  refine ⟨_, rfl, ?_, List.perm_insertIdx _ _ hcorrect.position_le⟩
  refine pairwise_insertIdx h hcorrect.position_le ?_ ?_
  · intro x hx
    have := hcorrect.take_ne_gt hordered hx
    rw [ne_eq, compareWith_gt] at this
    omega
  · intro x hx
    have := hcorrect.drop_ne_lt hordered hx
    rw [ne_eq, compareWith_lt] at this
    omega

/-! ### drain -/

variable {root : RelayedMerkleRoot}

theorem indexEnd_le (h : Sorted self.list) : self.indexEnd search root ≤ self.list.length := by
  have hcorrect := search.correct (h.ordered root.authoritySetId root.block)
  unfold indexEnd
  cases hr : search.run (compareWith root.authoritySetId root.block) self.list with
  | ok i =>
      rw [hr] at hcorrect
      obtain ⟨x, hx, -⟩ := hcorrect
      obtain ⟨hlt, -⟩ := List.getElem?_eq_some_iff.mp hx
      exact hlt
  | error i =>
      rw [hr] at hcorrect
      exact hcorrect.1

/-- Nothing before the end is of a newer block. -/
theorem take_indexEnd (h : Sorted self.list) {m : MessageInBlock}
    (hm : m ∈ self.list.take (self.indexEnd search root)) :
    compareWith root.authoritySetId root.block m ≠ .gt := by
  have hordered := h.ordered root.authoritySetId root.block
  have hcorrect := search.correct hordered
  unfold indexEnd at hm
  cases hr : search.run (compareWith root.authoritySetId root.block) self.list with
  | ok i =>
      rw [hr] at hcorrect hm
      obtain ⟨x, hx, heq⟩ := hcorrect
      obtain ⟨j, hj, hget⟩ := mem_take_iff.mp hm
      intro hgt
      rw [hordered.gt (Nat.le_of_lt_succ hj) hget hx hgt] at heq
      contradiction
  | error i =>
      rw [hr] at hcorrect hm
      exact hcorrect.take_ne_gt hordered hm

/-- Nothing from the end on is of an older block. -/
theorem drop_indexEnd (h : Sorted self.list) {m : MessageInBlock}
    (hm : m ∈ self.list.drop (self.indexEnd search root)) :
    compareWith root.authoritySetId root.block m ≠ .lt := by
  have hordered := h.ordered root.authoritySetId root.block
  have hcorrect := search.correct hordered
  refine hcorrect.drop_ne_lt hordered (List.drop_subset_drop_left _ ?_ hm)
  unfold indexEnd
  cases search.run (compareWith root.authoritySetId root.block) self.list with
  | ok i => exact Nat.le_succ i
  | error i => exact Nat.le_refl i

theorem indexStart_le_indexEnd (h : Sorted self.list) :
    self.indexStart search root ≤ self.indexEnd search root := by
  by_contra hlt
  rw [Nat.not_le] at hlt
  have hordered := h.ordered root.authoritySetId 0
  have hcorrect := search.correct hordered
  have hend : self.indexEnd search root < self.list.length := by
    have := hcorrect.position_le
    unfold indexStart at hlt
    omega
  -- the message at the end is neither above block 0 nor below the block of the root
  have hget : self.list[self.indexEnd search root]? = some self.list[self.indexEnd search root] :=
    List.getElem?_eq_getElem hend
  have hle := hcorrect.take_ne_gt hordered (mem_take_iff.mpr ⟨_, hlt, hget⟩)
  have hge := drop_indexEnd h (mem_drop_iff.mpr ⟨_, Nat.le_refl _, hget⟩)
  rw [ne_eq, compareWith_gt] at hle
  rw [ne_eq, compareWith_lt] at hge
  -- so the block of the root is 0, and both ends come from the same search
  have hzero : root.block = 0 := by omega
  unfold indexStart indexEnd at hlt
  rw [hzero] at hlt
  cases hr : search.run (compareWith root.authoritySetId 0) self.list with
  | ok i =>
      rw [hr] at hlt
      exact absurd hlt (Nat.not_lt.mpr (Nat.le_succ i))
  | error i =>
      rw [hr] at hlt
      exact absurd hlt (Nat.lt_irrefl i)

/-- The messages that `drain` keeps. -/
def kept (search : Search) (self : Messages) (root : RelayedMerkleRoot) : Messages :=
  { self with list := self.list.take (self.indexStart search root) ++
      self.list.drop (self.indexEnd search root) }

theorem Sorted.kept (h : Sorted self.list) : Sorted (self.kept search root).list := by
  refine List.Pairwise.sublist ?_ h
  conv_rhs => rw [← List.take_append_drop (self.indexStart search root) self.list]
  exact (List.Sublist.refl _).append
    (List.drop_sublist_drop_left _ (indexStart_le_indexEnd h))

/-- **What `drain` does**: it takes out messages that the root covers and keeps the others in
their order. -/
theorem drain_spec (search : Search) (h : Sorted self.list) (root : RelayedMerkleRoot) : ∃ drained,
    self.drain search root = some (self.kept search root, drained) ∧
      (drained ++ (self.kept search root).list).Perm self.list ∧ ∀ m ∈ drained, root.Covers m := by
  have hle := @indexStart_le_indexEnd search self root h
  refine ⟨(self.list.take (self.indexEnd search root)).drop (self.indexStart search root), ?_, ?_, ?_⟩
  · rw [drain, vecDrain, if_pos ⟨hle, indexEnd_le h⟩]
    rfl
  · have hsplit : self.list = self.list.take (self.indexStart search root) ++
        (self.list.take (self.indexEnd search root)).drop (self.indexStart search root) ++
        self.list.drop (self.indexEnd search root) := by
      conv_lhs => rw [← List.take_append_drop (self.indexEnd search root) self.list,
        ← List.take_append_drop (self.indexStart search root)
          (self.list.take (self.indexEnd search root)), List.take_take, Nat.min_eq_left hle]
    conv_rhs => rw [hsplit]
    rw [kept, ← List.append_assoc]
    exact (List.perm_append_comm).append_right _
  · intro m hm
    have hordered := h.ordered root.authoritySetId 0
    have hend := take_indexEnd h (List.mem_of_mem_drop hm)
    rw [List.drop_take] at hm
    have hstart := (search.correct hordered).drop_ne_lt hordered (List.mem_of_mem_take hm)
    rw [ne_eq, compareWith_gt] at hend
    rw [ne_eq, compareWith_lt] at hstart
    unfold RelayedMerkleRoot.Covers
    omega

/-- The stored messages of a block. -/
def ofBlock (self : Messages) (authoritySetId block : Nat) : List MessageInBlock :=
  self.list.filter fun m => decide (m.authoritySetId = authoritySetId ∧ m.block = block)

/-- No message of block `0` stays behind when there is at most one. -/
theorem take_indexStart_lt (h : Sorted self.list)
    (hone : (self.ofBlock root.authoritySetId 0).length ≤ 1) {m : MessageInBlock}
    (hm : m ∈ self.list.take (self.indexStart search root)) : m.authoritySetId < root.authoritySetId := by
  have hordered := h.ordered root.authoritySetId 0
  have hcorrect := search.correct hordered
  have hle := hcorrect.take_ne_gt hordered hm
  have hne : ¬ (m.authoritySetId = root.authoritySetId ∧ m.block = 0) := by
    unfold indexStart at hm
    cases hr : search.run (compareWith root.authoritySetId 0) self.list with
    | ok i =>
        rw [hr] at hcorrect hm
        obtain ⟨x, hx, heq⟩ := hcorrect
        rw [compareWith_eq] at heq
        simpa using (only_hit hx (decide_eq_true heq) hone).1 m hm
    | error i =>
        rw [hr] at hcorrect hm
        have hlt := hcorrect.2.1 m hm
        rw [compareWith_lt] at hlt
        omega
  rw [ne_eq, compareWith_gt] at hle
  omega

/-- No message of the block of the root stays behind when there is at most one, or the search
hits the last one. -/
theorem drop_indexEnd_gt (h : Sorted self.list)
    (hone : search.HitsLast ∨ (self.ofBlock root.authoritySetId root.block).length ≤ 1)
    {m : MessageInBlock} (hm : m ∈ self.list.drop (self.indexEnd search root)) :
    compareWith root.authoritySetId root.block m = .gt := by
  have hordered := h.ordered root.authoritySetId root.block
  have hcorrect := search.correct hordered
  have hge := drop_indexEnd h hm
  unfold indexEnd at hm
  cases hr : search.run (compareWith root.authoritySetId root.block) self.list with
  | ok i =>
      rw [hr] at hcorrect hm
      obtain ⟨x, hx, heq⟩ := hcorrect
      rcases hone with hlast | hone
      · exact hlast hordered hr m hm
      · rw [compareWith_eq] at heq
        have hne := (only_hit hx (decide_eq_true heq) hone).2 m hm
        rw [decide_eq_false_iff_not] at hne
        rw [ne_eq, compareWith_lt] at hge
        rw [compareWith_gt]
        omega
  | error i =>
      rw [hr] at hcorrect hm
      exact hcorrect.2.2 m hm

/-- The ends of the range are unambiguous: at most one message is of block `0` of the authority
set, and at most one of the block of the root unless the search hits the last one. -/
def Unambiguous (search : Search) (self : Messages) (root : RelayedMerkleRoot) : Prop :=
  (self.ofBlock root.authoritySetId 0).length ≤ 1 ∧
    (search.HitsLast ∨ (self.ofBlock root.authoritySetId root.block).length ≤ 1)

/-- What an unambiguous `drain` keeps is not covered. -/
theorem not_covers_of_kept (h : Sorted self.list) (hun : self.Unambiguous search root)
    {m : MessageInBlock} (hm : m ∈ (self.kept search root).list) : ¬ root.Covers m := by
  unfold RelayedMerkleRoot.Covers
  rcases List.mem_append.mp hm with hm | hm
  · have := take_indexStart_lt h hun.1 hm
    omega
  · have := drop_indexEnd_gt h hun.2 hm
    rw [compareWith_gt] at this
    omega

/-- With a search that hits the last one, several messages of block `0` leave one behind. -/
theorem exists_kept (hlast : search.HitsLast) (h : Sorted self.list)
    (hmany : 1 < (self.ofBlock root.authoritySetId 0).length) :
    ∃ m ∈ (self.kept search root).list, root.Covers m := by
  have hordered := h.ordered root.authoritySetId 0
  have hcorrect := search.correct hordered
  by_contra hnone
  have htake : ∀ m ∈ self.list.take (self.indexStart search root),
      decide (m.authoritySetId = root.authoritySetId ∧ m.block = 0) = false := by
    intro m hm
    rw [decide_eq_false_iff_not]
    rintro ⟨hset, hblock⟩
    exact hnone ⟨m, List.mem_append_left _ hm, hset.symm, by omega⟩
  have hdrop : ∀ m ∈ self.list.drop (self.indexStart search root + 1),
      decide (m.authoritySetId = root.authoritySetId ∧ m.block = 0) = false := by
    intro m hm
    have hgt : compareWith root.authoritySetId 0 m = .gt := by
      unfold indexStart at hm
      cases hr : search.run (compareWith root.authoritySetId 0) self.list with
      | ok i =>
          rw [hr] at hm
          exact hlast hordered hr m hm
      | error i =>
          rw [hr] at hcorrect hm
          exact hcorrect.2.2 m (List.drop_subset_drop_left _ (Nat.le_succ i) hm)
    rw [compareWith_gt] at hgt
    rw [decide_eq_false_iff_not]
    omega
  have hle : (self.ofBlock root.authoritySetId 0).length ≤ 1 := length_filter_le_one htake hdrop
  omega

end Messages

namespace MerkleRoots

/-- Roots are compared as messages are, the other way round. -/
theorem compare_swap (s b s' b' : Nat) : compare s b s' b' = Messages.compare s' b' s b := rfl

theorem compareWith_lt {s b : Nat} {r : RelayedMerkleRoot} :
    compareWith s b r = .lt ↔ s < r.authoritySetId ∨ (s = r.authoritySetId ∧ b < r.block) := by
  rw [compareWith, compare_swap, Messages.compare_lt]

theorem compareWith_gt {s b : Nat} {r : RelayedMerkleRoot} :
    compareWith s b r = .gt ↔ r.authoritySetId < s ∨ (s = r.authoritySetId ∧ r.block < b) := by
  rw [compareWith, compare_swap, Messages.compare_gt]

theorem compareWith_eq {s b : Nat} {r : RelayedMerkleRoot} :
    compareWith s b r = .eq ↔ s = r.authoritySetId ∧ b = r.block := by
  rw [compareWith, compare_swap, Messages.compare_eq]

/-- Sorted by authority set and block, the newest first and each block once. -/
def Sorted (l : List RelayedMerkleRoot) : Prop :=
  l.Pairwise fun x y => y.authoritySetId < x.authoritySetId ∨
    (y.authoritySetId = x.authoritySetId ∧ y.block < x.block)

theorem Sorted.ordered {l : List RelayedMerkleRoot} (h : Sorted l) (s b : Nat) :
    Ordered (compareWith s b) l := by
  refine h.imp ?_
  intro x y hxy
  simp only [compareWith_lt, compareWith_gt]
  omega

variable {search : Search} {self : MerkleRoots}

/-- A root that is found is stored and covers the message. -/
theorem find_some (h : Sorted self.list) {m : MessageInBlock} {root : RelayedMerkleRoot}
    (hfind : self.find search m.authoritySetId m.block = some root) :
    root ∈ self.list ∧ root.Covers m := by
  have hordered := h.ordered m.authoritySetId m.block
  have hcorrect := search.correct hordered
  unfold find at hfind
  cases hr : search.run (compareWith m.authoritySetId m.block) self.list with
  | ok i =>
      rw [hr] at hcorrect hfind
      obtain ⟨x, hx, heq⟩ := hcorrect
      cases hx.symm.trans hfind
      rw [compareWith_eq] at heq
      exact ⟨List.mem_of_getElem? hx, heq.1.symm, by omega⟩
  | error i =>
      rw [hr] at hcorrect hfind
      simp only at hfind
      repeat' split at hfind
      all_goals cases hfind
      rename_i hi _ hget hset
      rw [not_not] at hset
      refine ⟨List.mem_of_getElem? hget, hset, ?_⟩
      have hlt := hcorrect.2.1 root (mem_take_iff.mpr ⟨i - 1, by omega, hget⟩)
      rw [compareWith_lt] at hlt
      omega

/-- When no root is found, none of the stored ones covers the message. -/
theorem find_none (h : Sorted self.list) {m : MessageInBlock}
    (hfind : self.find search m.authoritySetId m.block = none) {root : RelayedMerkleRoot}
    (hroot : root ∈ self.list) : ¬ root.Covers m := by
  have hordered := h.ordered m.authoritySetId m.block
  have hcorrect := search.correct hordered
  rintro ⟨hset, hblock⟩
  unfold find at hfind
  cases hr : search.run (compareWith m.authoritySetId m.block) self.list with
  | ok i =>
      rw [hr] at hcorrect hfind
      obtain ⟨x, hx, -⟩ := hcorrect
      cases hx.symm.trans hfind
  | error i =>
      rw [hr] at hcorrect hfind
      obtain ⟨hle, hbefore, hafter⟩ := hcorrect
      -- the root is among those before the position
      obtain ⟨j, hj, hget⟩ : ∃ j, j < i ∧ self.list[j]? = some root := by
        rw [← mem_take_iff]
        rw [← List.take_append_drop i self.list, List.mem_append] at hroot
        refine hroot.resolve_right ?_
        intro hdrop
        have := hafter root hdrop
        rw [compareWith_gt] at this
        omega
      have hi : i - 1 < self.list.length := by omega
      have hlast : self.list[i - 1]? = some self.list[i - 1] := List.getElem?_eq_getElem hi
      have hgt := hbefore _ (mem_take_iff.mpr ⟨i - 1, by omega, hlast⟩)
      rw [compareWith_lt] at hgt
      -- the last of those is between the message and the root
      have hsame : self.list[i - 1].authoritySetId = m.authoritySetId := by
        rcases Nat.lt_or_eq_of_le (Nat.le_sub_one_of_lt hj) with hlt | rfl
        · obtain ⟨hjl, rfl⟩ := List.getElem?_eq_some_iff.mp hget
          have := List.pairwise_iff_getElem.mp h j (i - 1) hjl hi hlt
          omega
        · cases hlast.symm.trans hget
          exact hset
      simp only [hlast] at hfind
      rw [if_neg (by omega), if_neg (by simpa using hsame)] at hfind
      contradiction

/-- Below the capacity, a root is refused because there is one of its block, or it is added. -/
theorem add_spec (search : Search) (h : Sorted self.list) (hroom : self.list.length < self.capacity)
    (root : RelayedMerkleRoot) :
    (∃ i, ∃ old ∈ self.list, old.authoritySetId = root.authoritySetId ∧ old.block = root.block ∧
      self.add search root = some (self, .error i)) ∨
    ∃ list, self.add search root = some (⟨list, self.capacity⟩, .ok none) ∧ Sorted list ∧
      list.Perm (root :: self.list) ∧
      ∀ old ∈ self.list, ¬ (old.authoritySetId = root.authoritySetId ∧ old.block = root.block) := by
  have hordered := h.ordered root.authoritySetId root.block
  have hcorrect := search.correct hordered
  unfold add
  cases hr : search.run (compareWith root.authoritySetId root.block) self.list with
  | ok i =>
      rw [hr] at hcorrect
      obtain ⟨x, hx, heq⟩ := hcorrect
      rw [compareWith_eq] at heq
      exact .inl ⟨i, x, List.mem_of_getElem? hx, heq.1.symm, heq.2.symm, rfl⟩
  | error i =>
      rw [hr] at hcorrect
      obtain ⟨hle, hbefore, hafter⟩ := hcorrect
      refine .inr ⟨self.list.insertIdx i root, ?_, ?_, List.perm_insertIdx _ _ hle, ?_⟩
      · simp only [if_pos hroom, vecInsert, if_pos hle]
        rfl
      · refine pairwise_insertIdx h hle ?_ ?_
        · intro x hx
          have := hbefore x hx
          rw [compareWith_lt] at this
          omega
        · intro x hx
          have := hafter x hx
          rw [compareWith_gt] at this
          omega
      · intro old hold heq
        rw [← List.take_append_drop i self.list, List.mem_append] at hold
        rcases hold with hold | hold
        · have := hbefore old hold
          rw [compareWith_lt] at this
          omega
        · have := hafter old hold
          rw [compareWith_gt] at this
          omega

end MerkleRoots

/-! ## runs -/

/-- The messages of an event. -/
def Event.messages : Event → List MessageInBlock
  | .message m => [m]
  | .merkleRoot _ => []

/-- The roots of an event. -/
def Event.merkleRoots : Event → List RelayedMerkleRoot
  | .message _ => []
  | .merkleRoot root => [root]

/-- The accumulator with what has come over its channels and what it has sent. -/
structure Run where
  accumulator : Accumulator
  messages : List MessageInBlock
  merkleRoots : List RelayedMerkleRoot
  emitted : List (MessageInBlock × RelayedMerkleRoot)

def Run.start : Run := ⟨.new, [], [], []⟩

/-- One event is received. -/
def step (search : Search) (w : Run) (e : Event) : Option Run :=
  (runInner search w.accumulator e).map fun (accumulator, sent) =>
    { accumulator
      messages := w.messages ++ e.messages
      merkleRoots := w.merkleRoots ++ e.merkleRoots
      emitted := w.emitted ++ sent }

/-- Neither vector is full. -/
def Run.BelowCapacity (w : Run) : Prop :=
  w.accumulator.messages.list.length < w.accumulator.messages.capacity ∧
    w.accumulator.merkleRoots.list.length < w.accumulator.merkleRoots.capacity

/-- A root of a block that there is no root of yet finds the ends of its range unambiguous. -/
def Unambiguous (search : Search) (w : Run) : Event → Prop
  | .message _ => True
  | .merkleRoot root => (∀ old ∈ w.accumulator.merkleRoots.list,
      ¬ (old.authoritySetId = root.authoritySetId ∧ old.block = root.block)) →
      w.accumulator.messages.Unambiguous search root

/-- **Exactly-once pairing**: a message that a received root covers has been sent as often as
it was received and does not wait any more, any other one waits as often as it was received
and has not been sent; and what has been sent was paired with a received root that covers it. -/
structure ExactlyOnce (w : Run) : Prop where
  covered : ∀ m, (∃ root ∈ w.merkleRoots, root.Covers m) →
    (w.emitted.map Prod.fst).count m = w.messages.count m ∧
      w.accumulator.messages.list.count m = 0
  uncovered : ∀ m, (¬ ∃ root ∈ w.merkleRoots, root.Covers m) →
    (w.emitted.map Prod.fst).count m = 0 ∧
      w.accumulator.messages.list.count m = w.messages.count m
  paired : ∀ p ∈ w.emitted, p.2 ∈ w.merkleRoots ∧ p.2.Covers p.1

/-- What holds between events, whatever the search hits. -/
structure Sound (w : Run) : Prop where
  messages : Messages.Sorted w.accumulator.messages.list
  merkleRoots : MerkleRoots.Sorted w.accumulator.merkleRoots.list
  stored : ∀ root ∈ w.accumulator.merkleRoots.list, root ∈ w.merkleRoots
  received : ∀ root ∈ w.merkleRoots, ∃ old ∈ w.accumulator.merkleRoots.list,
    old.authoritySetId = root.authoritySetId ∧ old.block = root.block
  split : (w.emitted.map Prod.fst ++ w.accumulator.messages.list).Perm w.messages
  paired : ∀ p ∈ w.emitted, p.2 ∈ w.merkleRoots ∧ p.2.Covers p.1

/-- No waiting message is covered. -/
def Waiting (w : Run) : Prop :=
  ∀ m ∈ w.accumulator.messages.list, ∀ root ∈ w.merkleRoots, ¬ root.Covers m

theorem Sound.exactlyOnce_iff {w : Run} (h : Sound w) : ExactlyOnce w ↔ Waiting w := by
  have hcount : ∀ m, (w.emitted.map Prod.fst).count m + w.accumulator.messages.list.count m =
      w.messages.count m := by
    intro m
    rw [← List.count_append]
    exact h.split.count_eq m
  constructor
  · intro honce m hm root hroot hcovers
    have := (honce.covered m ⟨root, hroot, hcovers⟩).2
    exact List.count_eq_zero.mp this hm
  · intro hwaiting
    refine ⟨?_, ?_, h.paired⟩
    · rintro m ⟨root, hroot, hcovers⟩
      have hzero : w.accumulator.messages.list.count m = 0 :=
        List.count_eq_zero.mpr fun hm => hwaiting m hm root hroot hcovers
      have := hcount m
      omega
    · intro m hnone
      have hzero : (w.emitted.map Prod.fst).count m = 0 := by
        rw [List.count_eq_zero]
        intro hm
        obtain ⟨p, hp, rfl⟩ := List.mem_map.mp hm
        exact hnone ⟨p.2, h.paired p hp⟩
      have := hcount m
      omega

theorem Sound.start : Sound .start := by
  constructor <;> simp [Run.start, Accumulator.new, Messages.new, MerkleRoots.new, Messages.Sorted,
    MerkleRoots.Sorted]

variable {search : Search} {w w' : Run}

/-- **What one event does**: a covered message is sent on; another one is stored; a root of a
block there is a root of is ignored; a new one takes out what `drain` takes. -/
inductive Effect (search : Search) (w : Run) : Event → Run → Prop
  | sent {m : MessageInBlock} {root : RelayedMerkleRoot}
      (stored : root ∈ w.accumulator.merkleRoots.list) (covers : root.Covers m) :
      Effect search w (.message m)
        ⟨w.accumulator, w.messages ++ [m], w.merkleRoots, w.emitted ++ [(m, root)]⟩
  | waiting {m : MessageInBlock} {list : List MessageInBlock}
      (uncovered : ∀ root ∈ w.accumulator.merkleRoots.list, ¬ root.Covers m)
      (sorted : Messages.Sorted list) (perm : list.Perm (m :: w.accumulator.messages.list)) :
      Effect search w (.message m)
        ⟨⟨⟨list, w.accumulator.messages.capacity⟩, w.accumulator.merkleRoots⟩, w.messages ++ [m],
          w.merkleRoots, w.emitted⟩
  | known {root old : RelayedMerkleRoot} (stored : old ∈ w.accumulator.merkleRoots.list)
      (same : old.authoritySetId = root.authoritySetId ∧ old.block = root.block) :
      Effect search w (.merkleRoot root)
        ⟨w.accumulator, w.messages, w.merkleRoots ++ [root], w.emitted⟩
  | drained {root : RelayedMerkleRoot} {list : List RelayedMerkleRoot}
      {drained : List MessageInBlock}
      (fresh : ∀ old ∈ w.accumulator.merkleRoots.list,
        ¬ (old.authoritySetId = root.authoritySetId ∧ old.block = root.block))
      (sorted : MerkleRoots.Sorted list) (perm : list.Perm (root :: w.accumulator.merkleRoots.list))
      (split : (drained ++ (w.accumulator.messages.kept search root).list).Perm
        w.accumulator.messages.list)
      (covers : ∀ m ∈ drained, root.Covers m) :
      Effect search w (.merkleRoot root)
        ⟨⟨w.accumulator.messages.kept search root, ⟨list, w.accumulator.merkleRoots.capacity⟩⟩,
          w.messages, w.merkleRoots ++ [root], w.emitted ++ drained.map (·, root)⟩

/-- Below the capacities every event is handled, with one of the effects listed. -/
theorem exists_step (search : Search) (h : Sound w) (hroom : w.BelowCapacity) (e : Event) :
    ∃ w', step search w e = some w' ∧ Effect search w e w' := by
  unfold step
  cases e with
  | message m =>
      cases hfind : w.accumulator.merkleRoots.find search m.authoritySetId m.block with
      | some root =>
          obtain ⟨hstored, hcovers⟩ := MerkleRoots.find_some h.merkleRoots hfind
          refine ⟨_, ?_, .sent hstored hcovers⟩
          simp [runInner, hfind, Event.messages, Event.merkleRoots]
      | none =>
          obtain ⟨list, hadd, hsorted, hperm⟩ := Messages.add_spec search h.messages hroom.1 m
          refine ⟨_, ?_, .waiting (fun root hroot => MerkleRoots.find_none h.merkleRoots hfind hroot)
            hsorted hperm⟩
          simp [runInner, hfind, hadd, Event.messages, Event.merkleRoots]
  | merkleRoot root =>
      rcases MerkleRoots.add_spec search h.merkleRoots hroom.2 root with
        ⟨i, old, hold, hset, hblock, hadd⟩ | ⟨list, hadd, hsorted, hperm, hfresh⟩
      · refine ⟨_, ?_, .known hold ⟨hset, hblock⟩⟩
        simp [runInner, hadd, Event.messages, Event.merkleRoots]
      · obtain ⟨drained, hdrain, hsplit, hcovers⟩ := Messages.drain_spec search h.messages root
        refine ⟨_, ?_, .drained hfresh hsorted hperm hsplit hcovers⟩
        simp [runInner, hadd, dropStuck, hdrain, Event.messages, Event.merkleRoots]

theorem step_effect (h : Sound w) (hroom : w.BelowCapacity) {e : Event}
    (hstep : step search w e = some w') : Effect search w e w' := by
  obtain ⟨w₁, hw₁, heffect⟩ := exists_step search h hroom e
  cases hw₁.symm.trans hstep
  exact heffect

theorem Effect.sound {e : Event} (heffect : Effect search w e w') (h : Sound w) : Sound w' := by
  cases heffect with
  | @sent m root hstored hcovers =>
      refine ⟨h.messages, h.merkleRoots, h.stored, h.received, ?_, ?_⟩
      · rw [List.map_append, List.append_assoc]
        refine List.Perm.trans ?_ (h.split.append_right [m])
        rw [List.append_assoc]
        exact List.perm_append_comm.append_left _
      · intro p hp
        rcases List.mem_append.mp hp with hp | hp
        · exact h.paired p hp
        · cases List.mem_singleton.mp hp
          exact ⟨h.stored root hstored, hcovers⟩
  | @waiting m list huncovered hsorted hperm =>
      refine ⟨hsorted, h.merkleRoots, h.stored, h.received, ?_, h.paired⟩
      exact ((hperm.append_left _).trans List.perm_middle).trans
        ((h.split.cons m).trans (List.perm_append_singleton m w.messages).symm)
  | @known root old hstored hsame =>
      refine ⟨h.messages, h.merkleRoots, ?_, ?_, h.split, ?_⟩
      · intro r hr
        exact List.mem_append_left _ (h.stored r hr)
      · intro r hr
        rcases List.mem_append.mp hr with hr | hr
        · exact h.received r hr
        · cases List.mem_singleton.mp hr
          exact ⟨old, hstored, hsame⟩
      · intro p hp
        exact ⟨List.mem_append_left _ (h.paired p hp).1, (h.paired p hp).2⟩
  | @drained root list drained hfresh hsorted hperm hsplit hcovers =>
      refine ⟨h.messages.kept, hsorted, ?_, ?_, ?_, ?_⟩
      · intro r hr
        rcases List.mem_cons.mp (hperm.mem_iff.mp hr) with rfl | hr
        · exact List.mem_append_right _ (List.mem_singleton_self _)
        · exact List.mem_append_left _ (h.stored r hr)
      · intro r hr
        rcases List.mem_append.mp hr with hr | hr
        · obtain ⟨old, hold, hsame⟩ := h.received r hr
          exact ⟨old, hperm.mem_iff.mpr (List.mem_cons_of_mem _ hold), hsame⟩
        · cases List.mem_singleton.mp hr
          exact ⟨root, hperm.mem_iff.mpr List.mem_cons_self, rfl, rfl⟩
      · have hfst : (drained.map (·, root)).map Prod.fst = drained := by
          rw [List.map_map]
          exact List.map_id drained
        rw [List.map_append, hfst, List.append_assoc]
        exact (hsplit.append_left _).trans h.split
      · intro p hp
        rcases List.mem_append.mp hp with hp | hp
        · exact ⟨List.mem_append_left _ (h.paired p hp).1, (h.paired p hp).2⟩
        · obtain ⟨m, hm, rfl⟩ := List.mem_map.mp hp
          exact ⟨List.mem_append_right _ (List.mem_singleton_self _), hcovers m hm⟩

/-- A root covers what another one of its block covers. -/
theorem RelayedMerkleRoot.Covers.of_same {root old : RelayedMerkleRoot} {m : MessageInBlock}
    (hsame : old.authoritySetId = root.authoritySetId ∧ old.block = root.block)
    (h : root.Covers m) : old.Covers m := by
  unfold Covers at *
  omega

/-- An unambiguous event leaves no covered message waiting. -/
theorem Effect.keeps_waiting {e : Event} (heffect : Effect search w e w') (h : Sound w)
    (hwaiting : Waiting w) (hun : Unambiguous search w e) : Waiting w' := by
  cases heffect with
  | sent => exact hwaiting
  | @waiting m list huncovered hsorted hperm =>
      intro m' hm' root hroot
      rcases List.mem_cons.mp (hperm.mem_iff.mp hm') with rfl | hm'
      · obtain ⟨old, hold, hsame⟩ := h.received root hroot
        exact fun hcovers => huncovered old hold (hcovers.of_same hsame)
      · exact hwaiting m' hm' root hroot
  | @known root old hstored hsame =>
      intro m hm r hr
      rcases List.mem_append.mp hr with hr | hr
      · exact hwaiting m hm r hr
      · cases List.mem_singleton.mp hr
        exact fun hcovers => hwaiting m hm old (h.stored old hstored) (hcovers.of_same hsame)
  | @drained root list drained hfresh hsorted hperm hsplit hcovers =>
      intro m hm r hr
      rcases List.mem_append.mp hr with hr | hr
      · exact hwaiting m (hsplit.mem_iff.mp (List.mem_append_right _ hm)) r hr
      · cases List.mem_singleton.mp hr
        exact Messages.not_covers_of_kept h.messages (hun hfresh) hm

/-- With a search that hits the last of equal messages, an event that leaves no covered message
waiting is unambiguous. -/
theorem Effect.unambiguous {e : Event} (heffect : Effect search w e w') (hlast : search.HitsLast)
    (h : Sound w) (hwaiting : Waiting w') : Unambiguous search w e := by
  cases heffect with
  | sent => trivial
  | waiting => trivial
  | @known root old hstored hsame => exact fun hfresh => absurd hsame (hfresh old hstored)
  | @drained root list drained hfresh hsorted hperm hsplit hcovers =>
      refine fun _ => ⟨?_, .inl hlast⟩
      by_contra hmany
      obtain ⟨m, hm, hcovered⟩ := Messages.exists_kept hlast h.messages (Nat.lt_of_not_le hmany)
      exact hwaiting m hm root (List.mem_append_right _ (List.mem_singleton_self _)) hcovered

/-- The events of a run: no capacity is reached, and roots find unambiguous ends. -/
def Orderly (search : Search) (w : Run) (e : Event) : Prop :=
  w.BelowCapacity ∧ Unambiguous search w e

theorem sound_of_reachable (h : Reachable (step search) (Orderly search) (· = .start) w) :
    Sound w ∧ Waiting w := by
  refine Reachable.invariant (I := fun w => Sound w ∧ Waiting w) ?_ ?_ h
  · rintro s rfl
    refine ⟨.start, ?_⟩
    intro m hm
    cases hm
  · rintro s e s' ⟨hs, hw⟩ hok hstep
    have heffect := step_effect hs hok.1 hstep
    exact ⟨heffect.sound hs, heffect.keeps_waiting hs hw hok.2⟩

/-- **Every message is paired exactly once**, whatever the order of messages and roots and
whatever the search hits among equal messages, in every run below the capacities whose new
roots find the ends of their range unambiguous.  Every further event is handled; and with a
search that hits the last of equal messages, as that of the Rust library does, the event keeps
the pairing if and only if it is unambiguous. -/
theorem exactly_once (search : Search) (w : Run)
    (h : Reachable (step search) (Orderly search) (· = .start) w) :
    ExactlyOnce w ∧ ∀ e, w.BelowCapacity → ∃ w', step search w e = some w' ∧
      (search.HitsLast → (ExactlyOnce w' ↔ Unambiguous search w e)) := by
  obtain ⟨hs, hw⟩ := sound_of_reachable h
  refine ⟨hs.exactlyOnce_iff.mpr hw, ?_⟩
  intro e hroom
  obtain ⟨w', hstep, heffect⟩ := exists_step search hs hroom e
  refine ⟨w', hstep, ?_⟩
  intro hlast
  rw [(heffect.sound hs).exactlyOnce_iff]
  exact ⟨heffect.unambiguous hlast hs, heffect.keeps_waiting hs hw⟩

/-- A message of authority set `1`, told apart by its nonce. -/
def sampleMessage (nonce : BitVec 256) (block : Nat) : MessageInBlock :=
  ⟨⟨nonce, 7, 8, []⟩, block, 9, 1⟩

/-- A root of authority set `1`. -/
def sampleRoot (block : Nat) : RelayedMerkleRoot := ⟨block, 9, 1, 6⟩

instance (w : Run) : Decidable w.BelowCapacity := inferInstanceAs (Decidable (_ ∧ _))

/-- Three messages of which two are of one block, and the root of that block: both are paired
with it and the third one goes on waiting. -/
theorem exactly_once_block : ∃ w, Reachable (step stdSearch) (Orderly stdSearch) (· = .start) w ∧
    w.emitted = [(sampleMessage 1 5, sampleRoot 5), (sampleMessage 0 5, sampleRoot 5)] ∧
    ExactlyOnce w := by
  have h : Reachable (step stdSearch) (Orderly stdSearch) (· = .start) _ :=
    .next (a := .merkleRoot (sampleRoot 5))
      (.next (a := .message (sampleMessage 2 6))
        (.next (a := .message (sampleMessage 1 5))
          (.next (a := .message (sampleMessage 0 5)) (.start rfl) ⟨by decide, trivial⟩ rfl)
          ⟨by decide, trivial⟩ rfl)
        ⟨by decide, trivial⟩ rfl)
      ⟨by decide, fun _ => ⟨by decide, .inl stdSearch_hitsLast⟩⟩ rfl
  exact ⟨_, h, by decide, (exactly_once stdSearch _ h).1⟩

/-- With the search of the Rust library, of two messages of block `0` a root takes out one, and
the other one stays behind. -/
theorem message_left_behind : ¬ ∀ w : Run,
    Reachable (step stdSearch) (fun w _ => w.BelowCapacity) (· = .start) w → ExactlyOnce w := by
  intro hclaim
  obtain ⟨w, hw, hr⟩ := @exists_reachable_of_exec _ _ (step stdSearch) (fun w _ => w.BelowCapacity)
    _ (· = .start) .start rfl
    [.message (sampleMessage 0 0), .message (sampleMessage 1 0), .merkleRoot (sampleRoot 3)]
    (fun w => decide (sampleRoot 3 ∈ w.merkleRoots) &&
      decide (w.accumulator.messages.list = [sampleMessage 1 0]))
    (by decide +kernel)
  simp only [Bool.and_eq_true, decide_eq_true_eq] at hr
  have hcovers : (sampleRoot 3).Covers (sampleMessage 1 0) := ⟨rfl, Nat.zero_le 3⟩
  have hzero := ((hclaim w hw).covered (sampleMessage 1 0) ⟨_, hr.1, hcovers⟩).2
  rw [hr.2] at hzero
  exact absurd hzero (by decide)

end GearBridges.MessageRelayer
