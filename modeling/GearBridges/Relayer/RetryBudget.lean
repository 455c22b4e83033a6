import GearBridges.Lib.Transition
import Mathlib.Algebra.Group.Nat.Defs
import Mathlib.Data.List.TakeWhile

/-!
# Relayer.RetryBudget

The loops that call something again after an error, a limited number of times: `run` of the
merkle root relayer and of the kill switch relayer, and the receiver of `spawn_receiver`.

The counter of the first two is advanced in every iteration and that of the third in every
failing one, and none is ever set back.  So what is limited is not the number of failures in a
row: a single failure after four successful iterations ends the relayers.  `retry_budget_iff`
says in which runs the limit works as one on failures in a row.
-/

namespace GearBridges.RetryBudget

open Transition

/-! ## failures in a row -/

/-- How many of the latest elements fail in a row; the list has the newest first. -/
def streak {α : Type*} (fails : α → Bool) (past : List α) : Nat := (past.takeWhile fails).length

section streak

variable {α : Type*} {fails : α → Bool} {a : α} {past : List α}

theorem streak_cons_of_fails (h : fails a = true) :
    streak fails (a :: past) = streak fails past + 1 := by
  simp [streak, h]

theorem streak_cons_of_not (h : fails a = false) : streak fails (a :: past) = 0 := by
  simp [streak, h]

end streak

/-! ## the relayers -/

def maxRetries : UInt32 := 5

/-- In seconds. -/
def baseRetryDelay : Nat := 1

/-- `2u32.pow(exponent)`, which wraps around. -/
def pow2 (exponent : UInt32) : UInt32 := UInt32.ofNat (2 ^ exponent.toNat)

/-- The texts of an error, the outermost context first. -/
abbrev Error := List String

/-- What an iteration meets: the error of `main_loop`, if any, with
`is_transport_error_recoverable` of it, and the errors of the two calls of `reconnect`. -/
structure Turn where
  error : Option (String × Bool)
  gearReconnect : Option String
  ethReconnect : Option String
deriving DecidableEq

def Turn.fails (turn : Turn) : Bool := turn.error.isSome

inductive Exit where
  | maxAttempts
  | gearReconnect
  | ethReconnect
deriving DecidableEq

/-- The variables of the loop, the delays that it computed and slept, newest first, and the
error that it returned. -/
structure Relayer where
  attempts : UInt32
  delays : List Nat
  slept : List Nat
  exit : Option (Exit × Error)
deriving DecidableEq

/-- What differs between the relayers: the time to sleep after a failing attempt, and the
errors. -/
structure Policy where
  sleep : UInt32 → Nat
  gaveUp : String → Error
  gearFailed : String → Error
  ethFailed : String → Error

/-- `BASE_RETRY_DELAY * 2u32.pow(attempts - 1)`. -/
def delay (attempts : UInt32) : Nat := baseRetryDelay * (pow2 (attempts - 1)).toNat

/-- One iteration of the loop. -/
def iteration (policy : Policy) (self : Relayer) (turn : Turn) : Option Relayer :=
  match self.exit with
  | some _ => none
  | none =>
      let self := { self with attempts := self.attempts + 1 }
      match turn.error with
      | none => some self
      | some (err, recoverable) =>
          let self := { self with delays := delay self.attempts :: self.delays }
          if maxRetries ≤ self.attempts then
            some { self with exit := some (.maxAttempts, policy.gaveUp err) }
          else
            let self := { self with slept := policy.sleep self.attempts :: self.slept }
            match turn.gearReconnect with
            | some e => some { self with exit := some (.gearReconnect, policy.gearFailed e) }
            | none =>
                match recoverable, turn.ethReconnect with
                | true, some e =>
                    some { self with exit := some (.ethReconnect, policy.ethFailed e) }
                | _, _ => some self

namespace MerkleRootRelayer

def policy : Policy where
  sleep := delay
  gaveUp err := ["Max attempts reached", err]
  gearFailed err := ["Failed to reconnect to Gear API", err]
  ethFailed err := [err]

def run : Relayer → Turn → Option Relayer := iteration policy

end MerkleRootRelayer

namespace KillSwitchRelayer

/-- The delay is written to the log; what is slept grows by one `BASE_RETRY_DELAY` an attempt. -/
def policy : Policy where
  sleep attempts := baseRetryDelay * attempts.toNat
  gaveUp err := [err]
  gearFailed err := ["Failed to reconnect: " ++ err]
  ethFailed err := ["Failed to reconnect: " ++ err]

def run : Relayer → Turn → Option Relayer := iteration policy

end KillSwitchRelayer

/-- The loop starts. -/
def Started (self : Relayer) : Prop := self = ⟨0, [], [], none⟩

/-- The iterations of a run, the newest first, that failed in a row. -/
abbrev failedInARow (past : List (Relayer × Turn)) : Nat := streak (fun p => p.2.fails) past

/-- The power in the delay fits in `u32`. -/
def PowFits (attempts : UInt32) : Prop := 2 ^ (attempts - 1).toNat < 2 ^ 32

/-- The retries are limited by failures in a row: the loop gives up only after `MAX_RETRIES` of
them, and no computation of a delay overflows. -/
structure CountsConsecutive (past : List (Relayer × Turn)) (last : Relayer) : Prop where
  givesUp : ∀ err, last.exit = some (.maxAttempts, err) → maxRetries.toNat ≤ failedInARow past
  delayFits : ∀ p ∈ past, p.2.fails = true → PowFits (p.1.attempts + 1)

/-- An iteration fails only among the first four, or as the fifth after four failing ones, as
counted by `attempts`. -/
def FailsEarly : List (Relayer × Turn) → Prop
  | [] => True
  | (self, turn) :: past =>
      (turn.fails = true → self.attempts < maxRetries - 1 ∨
        self.attempts = maxRetries - 1 ∧ (maxRetries - 1).toNat ≤ failedInARow past) ∧
      FailsEarly past

instance decidableFailsEarly : DecidablePred FailsEarly
  | [] => inferInstanceAs (Decidable True)
  | (self, turn) :: past =>
      have : Decidable (FailsEarly past) := decidableFailsEarly past
      inferInstanceAs (Decidable ((turn.fails = true → self.attempts < maxRetries - 1 ∨
        self.attempts = maxRetries - 1 ∧ (maxRetries - 1).toNat ≤ failedInARow past) ∧
          FailsEarly past))

variable {policy : Policy} {self self' : Relayer} {turn : Turn} {past : List (Relayer × Turn)}

/-- What an iteration does to the counter, and when it gives up. -/
theorem iteration_cases (h : iteration policy self turn = some self') :
    self.exit = none ∧ self'.attempts = self.attempts + 1 ∧
      ((∃ err, self'.exit = some (.maxAttempts, err)) ↔
        turn.fails = true ∧ maxRetries ≤ self.attempts + 1) := by
  unfold iteration at h
  split at h
  · contradiction
  · next hexit =>
      refine ⟨hexit, ?_⟩
      simp only [Turn.fails] at h ⊢
      split at h
      · next hok =>
          cases h
          simp [hok, hexit]
      · next err recoverable herr =>
          simp only [herr, Option.isSome_some, true_and]
          split at h
          · next hmax =>
              cases h
              simp [hmax]
          · next hmax =>
              split at h
              · cases h
                simp [hmax]
              · split at h
                · cases h
                  simp [hmax]
                · cases h
                  simp [hmax, hexit]

theorem failedInARow_cons (h : turn.fails = true) :
    failedInARow ((self, turn) :: past) = failedInARow past + 1 :=
  streak_cons_of_fails h

/-- A loop that goes on with all attempts used up has just seen a success. -/
theorem failedInARow_of_running (h : History (iteration policy) Started past self)
    (hexit : self.exit = none) (hmax : maxRetries ≤ self.attempts) : failedInARow past = 0 := by
  cases h with
  | start hs =>
      rw [hs] at hmax
      exact absurd hmax (by decide)
  | @next before _ past turn _ hstep =>
      obtain ⟨-, hattempts, hgaveUp⟩ := iteration_cases hstep
      refine streak_cons_of_not ?_
      by_contra hfails
      rw [Bool.not_eq_false] at hfails
      obtain ⟨err, herr⟩ := hgaveUp.mpr ⟨hfails, hattempts ▸ hmax⟩
      rw [hexit] at herr
      contradiction

/-- The subtraction undoes the addition, so that the power fits in the first 32 iterations. -/
theorem powFits_iff (attempts : UInt32) : PowFits (attempts + 1) ↔ attempts.toNat < 32 := by
  rw [PowFits, UInt32.add_sub_cancel]
  exact Nat.pow_lt_pow_iff_right (by decide)

/-- In these iterations the counter does not wrap around. -/
theorem maxRetries_le_iff {attempts : UInt32} (h : attempts.toNat < 32) :
    maxRetries ≤ attempts + 1 ↔ 4 ≤ attempts.toNat := by
  rw [UInt32.le_iff_toNat_le, UInt32.toNat_add]
  show 5 ≤ (attempts.toNat + 1) % 2 ^ 32 ↔ _
  omega

/-- The retries of a relayer are limited by failures in a row exactly when it fails early. -/
theorem countsConsecutive_iff (h : History (iteration policy) Started past self) :
    CountsConsecutive past self ↔ FailsEarly past := by
  induction h with
  | start hs =>
      rw [hs]
      exact ⟨fun _ => trivial, fun _ => ⟨by simp, by simp⟩⟩
  | @next before self past turn hpast hstep ih =>
      obtain ⟨hexit, -, hgaveUp⟩ := iteration_cases hstep
      constructor
      · rintro ⟨hgives, hfits⟩
        refine ⟨?_, ih.mp ⟨by simp [hexit], fun p hp => hfits p (List.mem_cons_of_mem _ hp)⟩⟩
        intro hfails
        have hfit : PowFits (before.attempts + 1) := hfits (before, turn) List.mem_cons_self hfails
        rw [powFits_iff] at hfit
        rw [UInt32.lt_iff_toNat_lt, ← UInt32.toNat_inj]
        show before.attempts.toNat < 4 ∨ before.attempts.toNat = 4 ∧ 4 ≤ _
        rcases Nat.lt_or_ge before.attempts.toNat 4 with hlt | hge
        · exact .inl hlt
        · -- the loop gives up, so that the iterations before have failed too
          obtain ⟨err, herr⟩ := hgaveUp.mpr ⟨hfails, (maxRetries_le_iff hfit).mpr hge⟩
          have hrow : 5 ≤ failedInARow ((before, turn) :: past) := hgives err herr
          rw [failedInARow_cons hfails] at hrow
          refine .inr ⟨?_, by omega⟩
          by_contra hne
          have hzero := failedInARow_of_running hpast hexit
            (UInt32.le_iff_toNat_le.mpr (show 5 ≤ before.attempts.toNat by omega))
          omega
      · rintro ⟨hearly, hbefore⟩
        obtain ⟨-, hfits⟩ := ih.mpr hbefore
        rw [UInt32.lt_iff_toNat_lt, ← UInt32.toNat_inj] at hearly
        have hearly : turn.fails = true → before.attempts.toNat < 4 ∨
          before.attempts.toNat = 4 ∧ 4 ≤ failedInARow past := hearly
        refine ⟨?_, ?_⟩
        · intro err herr
          obtain ⟨hfails, hmax⟩ := hgaveUp.mp ⟨err, herr⟩
          rw [maxRetries_le_iff (by have := hearly hfails; omega)] at hmax
          rw [failedInARow_cons hfails]
          show 5 ≤ _
          have := hearly hfails
          omega
        · rintro p hp hfails
          rcases List.mem_cons.mp hp with rfl | hold
          · show PowFits (before.attempts + 1)
            rw [powFits_iff]
            have := hearly hfails
            omega
          · exact hfits p hold hfails

/-! ## the receiver of updates -/

def countFailure : Nat := 3

/-- How `receive` ends. -/
inductive Receive where
  | break
  | continue
  | err
deriving DecidableEq

def Receive.fails (receive : Receive) : Bool := receive = .err

inductive Stop where
  | closed
  | failures
deriving DecidableEq

structure Receiver where
  failures : Nat
  stopped : Option Stop
deriving DecidableEq

/-- One round of the loop of `spawn_receiver`. -/
def spawnReceiver (self : Receiver) (receive : Receive) : Option Receiver :=
  match self.stopped with
  | some _ => none
  | none =>
      match receive with
      | .break => some { self with stopped := some .closed }
      | .continue => some self
      | .err =>
          let self := { self with failures := self.failures + 1 }
          if countFailure ≤ self.failures then some { self with stopped := some .failures }
          else some self

def Spawned (self : Receiver) : Prop := self = ⟨0, none⟩

/-- The receiver is stopped by errors only after `COUNT_FAILURE` of them in a row. -/
def StopsConsecutive (past : List (Receiver × Receive)) (self : Receiver) : Prop :=
  self.stopped = some .failures → countFailure ≤ streak (fun p => p.2.fails) past

/-- The third error comes right after the two before it. -/
def FailsInARow : List (Receiver × Receive) → Prop
  | [] => True
  | (self, receive) :: past =>
      (receive.fails = true → self.failures + 1 < countFailure ∨
        countFailure - 1 ≤ streak (fun p => p.2.fails) past) ∧
      FailsInARow past

instance decidableFailsInARow : DecidablePred FailsInARow
  | [] => inferInstanceAs (Decidable True)
  | (self, receive) :: past =>
      have : Decidable (FailsInARow past) := decidableFailsInARow past
      inferInstanceAs (Decidable ((receive.fails = true → self.failures + 1 < countFailure ∨
        countFailure - 1 ≤ streak (fun p => p.2.fails) past) ∧ FailsInARow past))

/-- The limit of the receiver is one on failures in a row exactly when its third error comes
right after the two before it. -/
theorem stopsConsecutive_iff {past : List (Receiver × Receive)} {self : Receiver}
    (h : History spawnReceiver Spawned past self) :
    StopsConsecutive past self ↔ FailsInARow past := by
  induction h with
  | start hs =>
      rw [hs]
      exact ⟨fun _ => trivial, fun _ => by simp [StopsConsecutive]⟩
  | @next before self past receive hpast hstep ih =>
      have hrunning : before.stopped = none := by
        by_contra hne
        obtain ⟨stop, hstop⟩ := Option.ne_none_iff_exists'.mp hne
        simp [spawnReceiver, hstop] at hstep
      have hbefore : FailsInARow past := ih.mp (by simp [StopsConsecutive, hrunning])
      cases receive with
      | «break» =>
          simp only [spawnReceiver, hrunning, Option.some.injEq] at hstep
          simp [← hstep, StopsConsecutive, FailsInARow, hbefore, Receive.fails]
      | «continue» =>
          simp only [spawnReceiver, hrunning, Option.some.injEq] at hstep
          simp [← hstep, StopsConsecutive, FailsInARow, hbefore, Receive.fails, hrunning]
      | err =>
          have hstopped : self.stopped = some .failures ↔ countFailure ≤ before.failures + 1 := by
            simp only [spawnReceiver, hrunning] at hstep
            split at hstep
            · next hmax => simp [← Option.some.inj hstep, hmax]
            · next hmax => simp [← Option.some.inj hstep, hmax]
          have hstreak : streak (fun p => p.2.fails) ((before, Receive.err) :: past) =
              streak (fun p => p.2.fails) past + 1 := streak_cons_of_fails rfl
          rw [StopsConsecutive, hstreak, hstopped]
          simp only [FailsInARow, hbefore, and_true, Receive.fails, decide_true, true_imp_iff]
          show 3 ≤ _ → 3 ≤ _ ↔ _ < 3 ∨ 2 ≤ _
          omega

/-- **The limits work as limits on failures in a row** exactly in the runs of the relayers that
fail early, and in those of the receiver whose third error comes right after the two before. -/
theorem retry_budget_iff (past : List (Relayer × Turn)) (self : Relayer)
    (received : List (Receiver × Receive)) (receiver : Receiver) :
    (History MerkleRootRelayer.run Started past self →
      (CountsConsecutive past self ↔ FailsEarly past)) ∧
    (History KillSwitchRelayer.run Started past self →
      (CountsConsecutive past self ↔ FailsEarly past)) ∧
    (History spawnReceiver Spawned received receiver →
      (StopsConsecutive received receiver ↔ FailsInARow received)) :=
  ⟨countsConsecutive_iff, countsConsecutive_iff, stopsConsecutive_iff⟩

/-- The main loop succeeds. -/
def succeeds : Turn := ⟨none, none, none⟩

/-- The main loop fails and the calls of `reconnect` succeed. -/
def failsOnce : Turn := ⟨some ("timeout", true), none, none⟩

/-- A relayer fails and goes on, and three errors in a row stop the receiver. -/
theorem retry_budget_iff_sample :
    CountsConsecutive [(⟨0, [], [], none⟩, failsOnce)] ⟨1, [1], [1], none⟩ ∧
    CountsConsecutive [(⟨1, [], [], none⟩, failsOnce), (⟨0, [], [], none⟩, succeeds)]
      ⟨2, [2], [2], none⟩ ∧
    StopsConsecutive [(⟨2, none⟩, .err), (⟨1, none⟩, .err), (⟨0, none⟩, .err)]
      ⟨3, some .failures⟩ := by
  obtain ⟨hmerkle, -, hreceiver⟩ := retry_budget_iff [(⟨0, [], [], none⟩, failsOnce)]
    ⟨1, [1], [1], none⟩ [(⟨2, none⟩, .err), (⟨1, none⟩, .err), (⟨0, none⟩, .err)]
    ⟨3, some .failures⟩
  obtain ⟨-, hkill, -⟩ := retry_budget_iff
    [(⟨1, [], [], none⟩, failsOnce), (⟨0, [], [], none⟩, succeeds)] ⟨2, [2], [2], none⟩ []
    ⟨0, none⟩
  refine ⟨(hmerkle ?_).mpr (by decide), (hkill ?_).mpr (by decide),
    (hreceiver ?_).mpr (by decide)⟩
  · exact .next (.start rfl) rfl
  · exact .next (.next (.start rfl) rfl) rfl
  · exact .next (.next (.next (.start rfl) rfl) rfl) rfl

/-- A relayer after four successful iterations. -/
theorem history_of_succeeds (policy : Policy) : History (iteration policy) Started
    [(⟨3, [], [], none⟩, succeeds), (⟨2, [], [], none⟩, succeeds), (⟨1, [], [], none⟩, succeeds),
      (⟨0, [], [], none⟩, succeeds)] ⟨4, [], [], none⟩ :=
  .next (.next (.next (.next (.start rfl) rfl) rfl) rfl) rfl

/-- The relayers give up at a single failure that comes after four successful iterations, and
the receiver stops at its third error though a success comes before it. -/
theorem single_failure_gives_up :
    (¬ ∀ past self, History MerkleRootRelayer.run Started past self →
      CountsConsecutive past self) ∧
    (¬ ∀ past self, History KillSwitchRelayer.run Started past self →
      CountsConsecutive past self) ∧
    ¬ ∀ past self, History spawnReceiver Spawned past self → StopsConsecutive past self := by
  refine ⟨?_, ?_, ?_⟩
  · intro hall
    have h : History MerkleRootRelayer.run Started _
      ⟨5, [16], [], some (.maxAttempts, ["Max attempts reached", "timeout"])⟩ :=
        (history_of_succeeds MerkleRootRelayer.policy).next (a := failsOnce) rfl
    exact absurd ((hall _ _ h).givesUp _ rfl) (by decide)
  · intro hall
    have h : History KillSwitchRelayer.run Started _
      ⟨5, [16], [], some (.maxAttempts, ["timeout"])⟩ :=
        (history_of_succeeds KillSwitchRelayer.policy).next (a := failsOnce) rfl
    exact absurd ((hall _ _ h).givesUp _ rfl) (by decide)
  · intro hall
    have h : History spawnReceiver Spawned [(⟨2, none⟩, .err), (⟨2, none⟩, .continue),
        (⟨1, none⟩, .err), (⟨0, none⟩, .err)] ⟨3, some .failures⟩ :=
      .next (.next (.next (.next (.start rfl) rfl) rfl) rfl) rfl
    exact absurd (hall _ _ h rfl) (by decide)

end GearBridges.RetryBudget
