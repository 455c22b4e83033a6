import GearBridges.Lib.Transition
import Mathlib.Data.UInt

/-!
# Relayer.BlockListener

The two block listeners of the message relayer.  Both poll the node for its latest finalized
block and send the numbers of the new blocks to their receivers, which live as long as the
listener.  They differ in where they keep their position: the Gear listener keeps it outside
`run_inner`, the Ethereum listener starts every `run_inner` at `from_block` again.

So the receivers of the Gear listener get every block once and in order across failures,
while the Ethereum listener repeats the blocks it has sent after the first failure
(`delivered_in_order`, `ethereum_repeats_after_failure`).  Both compute the next block with a
machine addition.
-/

namespace GearBridges.BlockListener

open Transition

def maxRetries : Nat := 5

/-- `for block in current..=latest`. -/
def blocksFrom (current latest : Nat) : List Nat := List.range' current (latest + 1 - current)

/-- The receiver got `from_block`, `from_block + 1`, ... without gaps or repetitions, nothing
beyond the heights reported, and every block up to each of them. -/
structure InOrder (fromBlock : Nat) (delivered reported : List Nat) : Prop where
  consecutive : delivered = List.range' fromBlock delivered.length
  bounded : ∀ b ∈ delivered, ∃ h ∈ reported, b ≤ h
  complete : ∀ h ∈ reported, ∀ b, fromBlock ≤ b → b ≤ h → b ∈ delivered

theorem InOrder.nil (fromBlock : Nat) : InOrder fromBlock [] [] :=
  ⟨rfl, by simp, by simp⟩

/-- The blocks delivered are those from `from_block` up to the next one. -/
theorem InOrder.mem_iff {fromBlock b : Nat} {delivered reported : List Nat}
    (h : InOrder fromBlock delivered reported) :
    b ∈ delivered ↔ fromBlock ≤ b ∧ b < fromBlock + delivered.length := by
  conv_lhs => rw [h.consecutive]
  exact List.mem_range'_1

/-- Sending the blocks from the next one on to the height reported. -/
theorem InOrder.extend {fromBlock : Nat} {delivered reported : List Nat}
    (h : InOrder fromBlock delivered reported) (latest : Nat) :
    InOrder fromBlock (delivered ++ blocksFrom (fromBlock + delivered.length) latest)
      (latest :: reported) := by
  constructor
  · conv_lhs => rw [h.consecutive, blocksFrom, List.length_range', List.range'_append_1]
    rw [blocksFrom, List.length_append, List.length_range']
  · intro b hb
    rcases List.mem_append.mp hb with hold | hnew
    · obtain ⟨height, hmem, hle⟩ := h.bounded b hold
      exact ⟨height, List.mem_cons_of_mem _ hmem, hle⟩
    · rw [blocksFrom, List.mem_range'_1] at hnew
      exact ⟨latest, List.mem_cons_self, by omega⟩
  · intro height hheight b hfrom hle
    rw [List.mem_append]
    rcases List.mem_cons.mp hheight with rfl | hold
    · -- the pass over the height just reported
      rcases Nat.lt_or_ge b (fromBlock + delivered.length) with hlt | hge
      · exact .inl (h.mem_iff.mpr ⟨hfrom, hlt⟩)
      · exact .inr (List.mem_range'_1.mpr ⟨hge, by omega⟩)
    · exact .inl (h.complete height hold b hfrom hle)

/-- A height below the next block is reported: nothing is left to send. -/
theorem InOrder.report {fromBlock latest : Nat} {delivered reported : List Nat}
    (h : InOrder fromBlock delivered reported) (hnext : latest < fromBlock + delivered.length) :
    InOrder fromBlock delivered (latest :: reported) := by
  refine ⟨h.consecutive, fun b hb => ?_, fun height hheight b hfrom hle => ?_⟩
  · obtain ⟨height, hmem, hle⟩ := h.bounded b hb
    exact ⟨height, List.mem_cons_of_mem _ hmem, hle⟩
  · rcases List.mem_cons.mp hheight with rfl | hold
    · exact h.mem_iff.mpr ⟨hfrom, by omega⟩
    · exact h.complete height hold b hfrom hle

/-! ## the Ethereum listener -/

namespace Ethereum

/-- The answer to `finalized_block_number`, with what comes after a failure: whether the
error is a recoverable transport error, and whether the reconnection succeeds. -/
inductive Answer where
  | finalized (latest : UInt64)
  | failed (recoverable reconnected : Bool)
deriving DecidableEq

/-- The task of the listener, with what it has sent and the heights it was told. -/
structure Listener where
  fromBlock : UInt64
  currentBlock : UInt64
  attempts : Nat
  running : Bool
  delivered : List Nat
  reported : List Nat
deriving DecidableEq

def start (fromBlock : UInt64) : Listener :=
  { fromBlock
    currentBlock := fromBlock
    attempts := 0
    running := true
    delivered := []
    reported := [] }

/-- One call of the node and what follows it: a round of the loop of `run_inner`, or the
end of `run_inner` with an error and a round of the loop of `run`. -/
def step (s : Listener) (answer : Answer) : Option Listener :=
  if s.running then
    match answer with
    | .finalized latest =>
        let s := { s with reported := latest.toNat :: s.reported }
        if s.currentBlock ≤ latest then
          some { s with
            delivered := s.delivered ++ blocksFrom s.currentBlock.toNat latest.toNat
            currentBlock := latest + 1 }
        else some s
    | .failed recoverable reconnected =>
        let attempts := s.attempts + 1
        if maxRetries ≤ attempts then some { s with attempts, running := false }
        else if recoverable && !reconnected then some { s with attempts, running := false }
        -- `run_inner` is entered again, from the first block
        else some { s with attempts, currentBlock := s.fromBlock }
  else none

/-- The steps that keep the position: a call fails only while nothing has been sent, and the
largest number is not reported. -/
def ok (s : Listener) : Answer → Bool
  | .finalized latest => decide (latest.toNat + 1 < 2 ^ 64)
  | .failed _ _ => decide (s.delivered = [])

/-- The invariant: what was sent is in order, and the loop stands at the next block. -/
structure Inv (fromBlock : UInt64) (s : Listener) : Prop where
  first : s.fromBlock = fromBlock
  inOrder : InOrder fromBlock.toNat s.delivered s.reported
  position : s.currentBlock.toNat = fromBlock.toNat + s.delivered.length

theorem inv_start (fromBlock : UInt64) : Inv fromBlock (start fromBlock) :=
  ⟨rfl, .nil _, rfl⟩

variable {fromBlock : UInt64} {s s' : Listener} {answer : Answer}

/-- **Step lemma.** -/
theorem Inv.step (hi : Inv fromBlock s) (hok : ok s answer = true)
    (h : step s answer = some s') : Inv fromBlock s' := by
  simp only [Ethereum.step] at h
  split at h
  · cases answer with
    | finalized latest =>
        simp only at h
        split at h
        · next hle =>
            cases h
            have hmax : latest.toNat + 1 < 2 ^ 64 := of_decide_eq_true hok
            have hle := UInt64.le_iff_toNat_le.mp hle
            refine ⟨hi.first, ?_, ?_⟩
            · have hext := hi.inOrder.extend latest.toNat
              rw [← hi.position] at hext
              exact hext
            · have hpos := hi.position
              rw [UInt64.toNat_add, show (1 : UInt64).toNat = 1 from rfl, Nat.mod_eq_of_lt hmax,
                List.length_append, blocksFrom, List.length_range']
              omega
        · next hlt =>
            cases h
            rw [UInt64.le_iff_toNat_le, hi.position] at hlt
            exact ⟨hi.first, hi.inOrder.report (by omega), hi.position⟩
    | failed recoverable reconnected =>
        have hnil : s.delivered = [] := of_decide_eq_true hok
        simp only at h
        split at h
        · cases h
          exact ⟨hi.first, hi.inOrder, hi.position⟩
        · split at h
          · cases h
            exact ⟨hi.first, hi.inOrder, hi.position⟩
          · cases h
            exact ⟨hi.first, hi.inOrder, by rw [hnil, hi.first]; rfl⟩
  · contradiction

/-- **Run lemma.** -/
theorem inv_of_reachable
    (h : Reachable Ethereum.step (fun s a => ok s a = true) (· = start fromBlock) s) :
    Inv fromBlock s := by
  refine h.invariant (I := Inv fromBlock) ?_ fun _ _ _ hi hok hs => hi.step hok hs
  intro s hs
  rw [show s = start fromBlock from hs]
  exact inv_start fromBlock

end Ethereum

/-! ## the Gear listener -/

namespace Gear

/-- The answers to `latest_finalized_block` and `block_hash_to_number`; when one of the two
fails, whether the reconnection succeeds. -/
inductive Answer where
  | finalized (finalizedHead : UInt32)
  | failed (reconnected : Bool)
deriving DecidableEq

/-- The task of the listener, with what it has sent to each receiver. -/
structure Listener (receiverCount : Nat) where
  currentBlock : UInt32
  running : Bool
  delivered : Fin receiverCount → List Nat
  reported : List Nat

variable {receiverCount : Nat}

def start (receiverCount : Nat) (fromBlock : UInt32) : Listener receiverCount :=
  { currentBlock := fromBlock
    running := true
    delivered := fun _ => []
    reported := [] }

/-- One call of the node and what follows it.  The position is a variable of `run`, so that
it stays when `run_inner` is entered again. -/
def step (s : Listener receiverCount) (answer : Answer) : Option (Listener receiverCount) :=
  if s.running then
    match answer with
    | .finalized finalizedHead =>
        let s := { s with reported := finalizedHead.toNat :: s.reported }
        if s.currentBlock ≤ finalizedHead then
          some { s with
            delivered := fun i =>
              s.delivered i ++ blocksFrom s.currentBlock.toNat finalizedHead.toNat
            currentBlock := finalizedHead + 1 }
        else some s
    | .failed reconnected => some { s with running := reconnected }
  else none

/-- The largest number is not reported. -/
def ok (_ : Listener receiverCount) : Answer → Bool
  | .finalized finalizedHead => decide (finalizedHead.toNat + 1 < 2 ^ 32)
  | .failed _ => true

structure Inv (fromBlock : UInt32) (s : Listener receiverCount) : Prop where
  inOrder : ∀ i, InOrder fromBlock.toNat (s.delivered i) s.reported
  position : ∀ i, s.currentBlock.toNat = fromBlock.toNat + (s.delivered i).length

theorem inv_start (fromBlock : UInt32) : Inv fromBlock (start receiverCount fromBlock) :=
  ⟨fun _ => .nil _, fun _ => rfl⟩

variable {fromBlock : UInt32} {s s' : Listener receiverCount} {answer : Answer}

/-- **Step lemma.** -/
theorem Inv.step (hi : Inv fromBlock s) (hok : ok s answer = true)
    (h : step s answer = some s') : Inv fromBlock s' := by
  simp only [Gear.step] at h
  split at h
  · cases answer with
    | finalized finalizedHead =>
        simp only at h
        split at h
        · next hle =>
            cases h
            have hmax : finalizedHead.toNat + 1 < 2 ^ 32 := of_decide_eq_true hok
            have hle := UInt32.le_iff_toNat_le.mp hle
            refine ⟨fun i => ?_, fun i => ?_⟩
            · have hext := (hi.inOrder i).extend finalizedHead.toNat
              rw [← hi.position i] at hext
              exact hext
            · have hpos := hi.position i
              rw [UInt32.toNat_add, show (1 : UInt32).toNat = 1 from rfl, Nat.mod_eq_of_lt hmax,
                List.length_append, blocksFrom, List.length_range']
              omega
        · next hlt =>
            cases h
            rw [UInt32.le_iff_toNat_le] at hlt
            refine ⟨fun i => (hi.inOrder i).report ?_, hi.position⟩
            rw [← hi.position i]
            omega
    | failed reconnected =>
        cases h
        exact ⟨hi.inOrder, hi.position⟩
  · contradiction

/-- **Run lemma.** -/
theorem inv_of_reachable
    (h : Reachable Gear.step (fun s a => ok s a = true) (· = start receiverCount fromBlock) s) :
    Inv fromBlock s := by
  refine h.invariant (I := Inv fromBlock) ?_ fun _ _ _ hi hok hs => hi.step hok hs
  intro s hs
  rw [show s = start receiverCount fromBlock from hs]
  exact inv_start fromBlock

end Gear

/-! ## both listeners -/

/-- **Every finalized block once and in order**, up to each height that was reported: for the
Gear listener across all failures, for the Ethereum listener as long as a call fails only
before the first block was sent. -/
theorem delivered_in_order (ethBlock : UInt64) (eth : Ethereum.Listener)
    (heth : Reachable Ethereum.step (fun s a => Ethereum.ok s a = true)
      (· = Ethereum.start ethBlock) eth)
    (receiverCount : Nat) (gearBlock : UInt32) (gear : Gear.Listener receiverCount)
    (hgear : Reachable Gear.step (fun s a => Gear.ok s a = true)
      (· = Gear.start receiverCount gearBlock) gear) :
    InOrder ethBlock.toNat eth.delivered eth.reported ∧
      ∀ i, InOrder gearBlock.toNat (gear.delivered i) gear.reported :=
  ⟨(Ethereum.inv_of_reachable heth).inOrder, (Gear.inv_of_reachable hgear).inOrder⟩

/-- A run of each listener with a failure and heights that do not grow. -/
theorem delivered_in_order_twelve : ∃ (eth : Ethereum.Listener) (gear : Gear.Listener 2),
    (eth.delivered = [10, 11, 12] ∧ gear.delivered 1 = [10, 11, 12]) ∧
      InOrder 10 eth.delivered eth.reported ∧ ∀ i, InOrder 10 (gear.delivered i) gear.reported := by
  obtain ⟨eth, heth, hp⟩ := @exists_reachable_of_exec _ _ Ethereum.step
    (fun s a => Ethereum.ok s a = true) _ (· = Ethereum.start 10) (Ethereum.start 10) rfl
    [.finalized 9, .failed true true, .finalized 11, .finalized 10, .finalized 12]
    (fun s => decide (s.delivered = [10, 11, 12])) (by decide +kernel)
  obtain ⟨gear, hgear, hq⟩ := @exists_reachable_of_exec _ _ Gear.step
    (fun s a => Gear.ok s a = true) _ (· = Gear.start 2 10) (Gear.start 2 10) rfl
    [.finalized 11, .failed true, .finalized 10, .finalized 12]
    (fun s => decide (s.delivered 1 = [10, 11, 12])) (by decide +kernel)
  rw [decide_eq_true_eq] at hp hq
  exact ⟨eth, gear, ⟨hp, hq⟩, delivered_in_order 10 eth heth 2 10 gear hgear⟩

/-- The Ethereum listener sends blocks 10 and 11, one call fails, and it sends both again. -/
theorem ethereum_repeats_after_failure : ∃ s,
    Reachable Ethereum.step free (· = Ethereum.start 10) s ∧ s.running = true ∧
      s.delivered = [10, 11, 10, 11, 12] ∧ ¬ InOrder 10 s.delivered s.reported := by
  obtain ⟨s, hs, hp⟩ := @exists_reachable_of_exec _ _ Ethereum.step free _
    (· = Ethereum.start 10) (Ethereum.start 10) rfl
    [.finalized 11, .failed true true, .finalized 12]
    (fun s => s.running && decide (s.delivered = [10, 11, 10, 11, 12])) (by decide +kernel)
  rw [Bool.and_eq_true, decide_eq_true_eq] at hp
  refine ⟨s, hs, hp.1, hp.2, fun hin => ?_⟩
  have := hin.consecutive
  rw [hp.2] at this
  exact absurd this (by decide)

end GearBridges.BlockListener
