import GearBridges.Lib.Transition
import GearBridges.Relayer.Stages
import GearBridges.VftManager.Types

/-!
# Relayer.GearMessageSender

The Gear `MessageSender` of the message relayer: it keeps the deposits that wait for a
checkpoint in one list, goes through the list from its end after every message or checkpoint
it receives, and submits the covered ones to vft-manager through the historical proxy.

The scan ends at the first error, and of the replies of `submit_receipt` only success and
`NotSupportedEvent` are no errors.  A second deposit of one transaction, or one that another
relayer has submitted, is answered with `AlreadyProcessed`: the message stays in the list,
keeps back those before it, and ends the task after five attempts (`duplicate_keeps_back`).
In the runs without such answers nothing that a checkpoint covers stays behind
(`duplicates_tolerated`).
-/

namespace GearBridges.GearMessageSender

open MessageRelayer Transition VftManager

/-- Slot and index of a transaction: its key in the history of vft-manager. -/
abbrev Key := Nat × Nat

/-! ## vft-manager -/

/-- The errors of `submit_receipt` apart from the one of its history. -/
abbrev OtherError := { e : Error // e ≠ .alreadyProcessed }

/-- What becomes of a call of the proxy: it fails, maybe after the receipt was credited, or
vft-manager refuses the receipt before it looks into its history, or it gets past that. -/
inductive Outcome where
  | failed (credited : Bool)
  | refused (e : OtherError)
  | passed (after : Except OtherError Unit)

/-- The part of `submit_receipt` that the sender sees: its reply, if there is one, and the
transactions credited after it. -/
def submitReceipt (credited : List Key) (key : Key) :
    Outcome → Option (Except Error Unit) × List Key
  | .failed true => (none, key :: credited)
  | .failed false => (none, credited)
  | .refused e => (some (.error e), credited)
  | .passed after =>
      if key ∈ credited then (some (.error .alreadyProcessed), credited)
      else
        match after with
        | .error e => (some (.error e), credited)
        | .ok () => (some (.ok ()), key :: credited)

/-! ## the sender -/

/-- The errors of `run_inner`: a call that failed, or the reply of vft-manager. -/
inductive SenderError where
  | call
  | vftManager (e : Error)
deriving DecidableEq

/-- The end of `submit_message`. -/
def submitMessage (decodeReply : Bool) : Option (Except Error Unit) → Except SenderError Unit
  | none => .error .call
  | some reply =>
      if decodeReply then
        match reply with
        | .ok () => .ok ()
        | .error .notSupportedEvent => .ok ()
        | .error e => .error (.vftManager e)
      else .ok ()

/-- Where the task stands: waiting for one of the channels, scanning the entries below `i`,
or ended.  `latest` is `latest_checkpoint_slot`, a variable of `run_inner`. -/
inductive Pc where
  | receiving (latest : Option Nat)
  | scanning (latest : Option Nat) (i : Nat)
  | exited
deriving DecidableEq

/-- The task and the history of vft-manager, and what has happened: the messages received,
submitted and removed, the checkpoints that `run_inner` has received since it started, and the
errors it has returned. -/
structure World where
  decodeReply : Bool
  waitingCheckpoint : List TxHashWithSlot
  pc : Pc
  attempts : Nat
  credited : List Key
  received : List TxHashWithSlot
  submitted : List TxHashWithSlot
  removed : List TxHashWithSlot
  checkpoints : List Nat
  errors : List SenderError

inductive Action where
  | message (m : TxHashWithSlot)
  | checkpoint (slot : Nat)
  | closed
  | scan (outcome : Outcome) (reconnected : Bool)
  | callFailed (reconnected : Bool)
  | credit (key : Key)

/-- `run_inner` returns an error: `run` starts it again, up to the limit. -/
def World.fail (w : World) (e : SenderError) (reconnected : Bool) : World :=
  { w with
    attempts := w.attempts + 1
    errors := e :: w.errors
    checkpoints := []
    pc := if maxRetries ≤ w.attempts + 1 ∨ reconnected = false then .exited else .receiving none }

/-- A checkpoint that is not above the latest one is reported and ignored. -/
def updateLatest (latest : Option Nat) (checkpoint : Nat) : Option Nat :=
  if latest.getD 0 < checkpoint then some checkpoint else latest

variable (keyOf : BitVec 256 → Key)

/-- The submission of entry `i` of the list. -/
def World.submit (w : World) (latest : Option Nat) (i : Nat) (m : TxHashWithSlot)
    (outcome : Outcome) (reconnected : Bool) : World :=
  let (reply, credited) := submitReceipt w.credited (keyOf m.txHash) outcome
  let w := { w with credited, submitted := m :: w.submitted }
  match submitMessage w.decodeReply reply with
  | .error e => w.fail e reconnected
  | .ok () => { w with
      waitingCheckpoint := w.waitingCheckpoint.eraseIdx i
      removed := m :: w.removed
      pc := .scanning latest i }

def step (w : World) : Action → Option World
  | .message m =>
      match w.pc with
      | .receiving latest => some { w with
          waitingCheckpoint := w.waitingCheckpoint ++ [m]
          received := m :: w.received
          pc := .scanning latest (w.waitingCheckpoint.length + 1) }
      | _ => none
  | .checkpoint slot =>
      match w.pc with
      | .receiving latest => some { w with
          checkpoints := slot :: w.checkpoints
          pc :=
            if w.waitingCheckpoint.isEmpty then .receiving (updateLatest latest slot)
            else .scanning (updateLatest latest slot) w.waitingCheckpoint.length }
      | _ => none
  | .closed =>
      match w.pc with
      | .receiving _ => some { w with pc := .exited }
      | _ => none
  | .scan outcome reconnected =>
      match w.pc with
      | .scanning latest 0 => some { w with pc := .receiving latest }
      | .scanning latest (i + 1) =>
          match w.waitingCheckpoint[i]? with
          | none => none
          | some m =>
              if m.slotNumber ≤ latest.getD 0 then
                some (w.submit keyOf latest i m outcome reconnected)
              else some { w with pc := .scanning latest i }
      | _ => none
  | .callFailed reconnected =>
      match w.pc with
      | .exited => none
      | _ => some (w.fail .call reconnected)
  | .credit key => some { w with credited := key :: w.credited }

def start (decodeReply : Bool) (credited : List Key) : World :=
  { decodeReply
    waitingCheckpoint := []
    pc := .receiving none
    attempts := 0
    credited
    received := []
    submitted := []
    removed := []
    checkpoints := []
    errors := [] }

/-! ## tolerance -/

/-- The message that the scan submits next. -/
def World.nextSubmitted (w : World) : Option TxHashWithSlot :=
  match w.pc with
  | .scanning latest (i + 1) =>
      (w.waitingCheckpoint[i]?).filter fun m => m.slotNumber ≤ latest.getD 0
  | _ => none

def Outcome.isPassed : Outcome → Bool
  | .passed _ => true
  | _ => false

/-- No submission whose reply is decoded finds its transaction credited. -/
def ok (w : World) : Action → Bool
  | .scan outcome _ => w.nextSubmitted.all fun m =>
      !w.decodeReply || !outcome.isPassed || decide (keyOf m.txHash ∉ w.credited)
  | _ => true

/-- What holds of the waiting messages at each point of the loop: above the checkpoints when
`run_inner` waits; while it scans, the entries that it has passed are above the latest one. -/
def Scanned (w : World) : Prop :=
  match w.pc with
  | .receiving latest => (∀ slot ∈ w.checkpoints, slot ≤ latest.getD 0) ∧
      ∀ m ∈ w.waitingCheckpoint, ∀ slot ∈ w.checkpoints, slot < m.slotNumber
  | .scanning latest i => (∀ slot ∈ w.checkpoints, slot ≤ latest.getD 0) ∧
      ∀ m ∈ w.waitingCheckpoint.drop i, latest.getD 0 < m.slotNumber
  | .exited => True

structure Inv (w : World) : Prop where
  noError : .vftManager .alreadyProcessed ∉ w.errors
  accounted : ∀ m, w.received.count m = w.removed.count m + w.waitingCheckpoint.count m
  submitted : ∀ m, w.removed.count m ≤ w.submitted.count m
  scanned : Scanned w

/-- Every checkpoint received is at most the latest one. -/
theorem le_updateLatest {latest : Option Nat} {slot : Nat} {checkpoints : List Nat}
    (h : ∀ c ∈ checkpoints, c ≤ latest.getD 0) :
    ∀ c ∈ slot :: checkpoints, c ≤ (updateLatest latest slot).getD 0 := by
  intro c hc
  unfold updateLatest
  rcases List.mem_cons.1 hc with rfl | hc
  · split
    · simp
    · omega
  · have hle := h c hc
    split
    · simp only [Option.getD_some]
      omega
    · exact hle

/-- vft-manager answers `AlreadyProcessed` when the receipt gets to its history and is there. -/
theorem submitReceipt_alreadyProcessed_iff {credited : List Key} {key : Key} {outcome : Outcome} :
    (submitReceipt credited key outcome).1 = some (.error .alreadyProcessed) ↔
      outcome.isPassed = true ∧ key ∈ credited := by
  cases outcome with
  | failed c => cases c <;> simp [submitReceipt, Outcome.isPassed]
  | refused e => simp [submitReceipt, Outcome.isPassed, e.2]
  | passed after =>
      by_cases hk : key ∈ credited
      · simp [submitReceipt, Outcome.isPassed, hk]
      · cases after with
        | error e => simp [submitReceipt, Outcome.isPassed, hk, e.2]
        | ok u => simp [submitReceipt, Outcome.isPassed, hk]

/-- A reply `AlreadyProcessed` is an error of the sender when it decodes the reply. -/
theorem submitMessage_alreadyProcessed_iff {decodeReply : Bool}
    {reply : Option (Except Error Unit)} :
    submitMessage decodeReply reply = .error (.vftManager .alreadyProcessed) ↔
      decodeReply = true ∧ reply = some (.error .alreadyProcessed) := by
  cases decodeReply with
  | false => cases reply <;> simp [submitMessage]
  | true =>
      cases reply with
      | none => simp [submitMessage]
      | some r =>
          cases r with
          | ok u => simp [submitMessage]
          | error e => cases e <;> simp [submitMessage]

variable {keyOf} {w w' : World}

theorem Inv.fail (h : Inv w) {e : SenderError} (he : e ≠ .vftManager .alreadyProcessed)
    (reconnected : Bool) : Inv (w.fail e reconnected) where
  noError := by
    show _ ∉ e :: w.errors
    rw [List.mem_cons, not_or]
    exact ⟨he.symm, h.noError⟩
  accounted := h.accounted
  submitted := h.submitted
  scanned := by
    by_cases hexit : maxRetries ≤ w.attempts + 1 ∨ reconnected = false
    · simp [Scanned, World.fail, hexit]
    · simp [Scanned, World.fail, hexit]

/-- The scan at an entry that it submits. -/
theorem Inv.submit (h : Inv w) {latest : Option Nat} {i : Nat} {m : TxHashWithSlot}
    (hpc : w.pc = .scanning latest (i + 1)) (hm : w.waitingCheckpoint[i]? = some m)
    (outcome : Outcome) (reconnected : Bool)
    (hok : w.decodeReply = true → outcome.isPassed = true → keyOf m.txHash ∉ w.credited) :
    Inv (w.submit keyOf latest i m outcome reconnected) := by
  have hsub : ∀ n, w.removed.count n ≤ (m :: w.submitted).count n := by
    intro n
    have hle := h.submitted n
    rw [List.count_cons]
    omega
  unfold World.submit
  cases hr : submitMessage w.decodeReply
      (submitReceipt w.credited (keyOf m.txHash) outcome).1 with
  | error e =>
      simp only [hr]
      refine Inv.fail (w := { w with
        credited := (submitReceipt w.credited (keyOf m.txHash) outcome).2
        submitted := m :: w.submitted })
        ⟨h.noError, h.accounted, hsub, h.scanned⟩ ?_ reconnected
      rintro rfl
      obtain ⟨hd, hreply⟩ := submitMessage_alreadyProcessed_iff.1 hr
      obtain ⟨hp, hmem⟩ := submitReceipt_alreadyProcessed_iff.1 hreply
      exact hok hd hp hmem
  | ok u =>
      simp only [hr]
      -- the entry between those still to scan and those that were passed
      obtain ⟨hi, hget⟩ := List.getElem?_eq_some_iff.1 hm
      have hs := h.scanned
      rw [Scanned, hpc] at hs
      have hsplit : w.waitingCheckpoint =
          w.waitingCheckpoint.take i ++ m :: w.waitingCheckpoint.drop (i + 1) := by
        rw [← hget, List.cons_getElem_drop_succ, List.take_append_drop]
      refine ⟨h.noError, fun n => ?_, fun n => ?_, ?_⟩
      · have hacc := h.accounted n
        rw [hsplit, List.count_append, List.count_cons] at hacc
        simp only [List.eraseIdx_eq_take_drop_succ, List.count_append, List.count_cons]
        omega
      · have hle := h.submitted n
        simp only [List.count_cons]
        omega
      · refine ⟨hs.1, ?_⟩
        show ∀ n ∈ (w.waitingCheckpoint.eraseIdx i).drop i, _
        rw [List.eraseIdx_eq_take_drop_succ, List.drop_append_of_le_length (by simp; omega)]
        simpa using hs.2

/-- The scan at any entry. -/
theorem Inv.scan (h : Inv w) {outcome : Outcome} {reconnected : Bool}
    (hok : ok keyOf w (.scan outcome reconnected) = true)
    (hs : step keyOf w (.scan outcome reconnected) = some w') : Inv w' := by
  simp only [step] at hs
  split at hs
  · next latest hpc =>
    injection hs with hs
    subst hs
    have hsc := h.scanned
    rw [Scanned, hpc] at hsc
    exact ⟨h.noError, h.accounted, h.submitted, hsc.1, fun m hm slot hslot =>
      lt_of_le_of_lt (hsc.1 slot hslot) (hsc.2 m hm)⟩
  · next latest i hpc =>
    split at hs
    · contradiction
    · next m hm =>
      split at hs
      · next hle =>
        injection hs with hs
        subst hs
        refine h.submit hpc hm outcome reconnected fun hd hp => ?_
        simpa [ok, World.nextSubmitted, hpc, hm, hle, hd, hp] using hok
      · next hlt =>
        injection hs with hs
        subst hs
        have hsc := h.scanned
        rw [Scanned, hpc] at hsc
        obtain ⟨hi, hget⟩ := List.getElem?_eq_some_iff.1 hm
        refine ⟨h.noError, h.accounted, h.submitted, hsc.1, ?_⟩
        show ∀ n ∈ w.waitingCheckpoint.drop i, _
        intro n hn
        rw [← List.cons_getElem_drop_succ (h := hi), hget] at hn
        rcases List.mem_cons.1 hn with rfl | hn
        · omega
        · exact hsc.2 n hn
  · contradiction

theorem Inv.step (h : Inv w) {a : Action} (hok : ok keyOf w a = true)
    (hs : step keyOf w a = some w') : Inv w' := by
  have hsc := h.scanned
  cases a with
  | message m =>
      simp only [GearMessageSender.step] at hs
      split at hs
      · next latest hpc =>
        injection hs with hs
        subst hs
        rw [Scanned, hpc] at hsc
        refine ⟨h.noError, fun n => ?_, h.submitted, hsc.1, ?_⟩
        · have hacc := h.accounted n
          simp only [List.count_append, List.count_cons, List.count_nil]
          omega
        · simp
      · contradiction
  | checkpoint slot =>
      simp only [GearMessageSender.step] at hs
      split at hs
      · next latest hpc =>
        injection hs with hs
        subst hs
        rw [Scanned, hpc] at hsc
        refine ⟨h.noError, h.accounted, h.submitted, ?_⟩
        cases hw : w.waitingCheckpoint with
        | nil => simpa [Scanned, hw] using le_updateLatest hsc.1
        | cons m ms =>
            simpa [Scanned, hw] using le_updateLatest hsc.1
      · contradiction
  | closed =>
      simp only [GearMessageSender.step] at hs
      split at hs
      · injection hs with hs
        subst hs
        exact ⟨h.noError, h.accounted, h.submitted, trivial⟩
      · contradiction
  | scan outcome reconnected => exact h.scan hok hs
  | callFailed reconnected =>
      simp only [GearMessageSender.step] at hs
      split at hs
      · contradiction
      · injection hs with hs
        subst hs
        exact h.fail (by simp) reconnected
  | credit key =>
      injection hs with hs
      subst hs
      exact ⟨h.noError, h.accounted, h.submitted, hsc⟩

theorem inv_start (decodeReply : Bool) (credited : List Key) : Inv (start decodeReply credited) :=
  ⟨List.not_mem_nil, fun _ => rfl, fun _ => le_rfl, by simp [Scanned, start]⟩

def credits : Action := .scan (.passed (.ok ())) true

end GearBridges.GearMessageSender
