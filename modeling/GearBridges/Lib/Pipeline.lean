import Mathlib.Data.List.Basic

/-!
# Lib.Pipeline

Workers that take items from a queue and process each with a program that makes fallible
calls and emits outputs.

`Calls` is the monad of such programs: a fault pattern says of each call, in order, whether it
is answered or with which error it fails (beyond the pattern every call is answered), and a
failed call ends the program.  `Emits p n a os` is the specification of a program that makes
`n` calls: when they are all answered it returns `a` and has emitted `os`; it composes along
`bind` and loops.

A `Worker` runs its program once for each item, and after an error goes on with the next
item, for as long as its retry policy lets it.  `rounds` is the record of what it has taken,
under which faults, and what it emitted.
-/

namespace Pipeline

variable {ε ο ι α β γ : Type}

/-! ## programs of calls -/

/-- A program: from the fault pattern to its result, the rest of the pattern and what it
emitted. -/
def Calls (ε ο α : Type) : Type := List (Option ε) → Except ε α × List (Option ε) × List ο

namespace Calls

def run (p : Calls ε ο α) (faults : List (Option ε)) : Except ε α × List (Option ε) × List ο :=
  p faults

instance : Monad (Calls ε ο) where
  pure a := fun faults => (.ok a, faults, [])
  bind p f := fun faults =>
    match p.run faults with
    | (.error e, faults, os) => (.error e, faults, os)
    | (.ok a, faults, os) =>
        let (r, faults, os') := (f a).run faults
        (r, faults, os ++ os')

/-- A call that is answered with `a`, unless the pattern lets it fail. -/
def call (a : α) : Calls ε ο α
  | [] => (.ok a, [], [])
  | none :: faults => (.ok a, faults, [])
  | some e :: faults => (.error e, faults, [])

def emit (o : ο) : Calls ε ο Unit := fun faults => (.ok (), faults, [o])

/-- Try a program up to `n` times; after that it fails with `e`. -/
def retry (e : ε) (p : Calls ε ο α) : Nat → Calls ε ο α
  | 0 => fun faults => (.error e, faults, [])
  | n + 1 => fun faults =>
      match p.run faults with
      | (.ok a, faults, os) => (.ok a, faults, os)
      | (.error _, faults, os) =>
          let (r, faults, os') := (retry e p n).run faults
          (r, faults, os ++ os')

/-- For each element of a list, in order. -/
def forEach (f : α → Calls ε ο Unit) : List α → Calls ε ο Unit
  | [] => pure ()
  | a :: as => do
      f a
      forEach f as

/-- What a program emits. -/
def emitted (p : Calls ε ο α) (faults : List (Option ε)) : List ο := (p.run faults).2.2

@[simp] theorem run_pure (a : α) (faults : List (Option ε)) :
    (pure a : Calls ε ο α).run faults = (.ok a, faults, []) := rfl

@[simp] theorem run_emit (o : ο) (faults : List (Option ε)) :
    (emit o : Calls ε ο Unit).run faults = (.ok (), faults, [o]) := rfl

theorem run_bind (p : Calls ε ο α) (f : α → Calls ε ο β) (faults : List (Option ε)) :
    (p >>= f).run faults =
      match p.run faults with
      | (Except.error e, faults, os) => (Except.error e, faults, os)
      | (Except.ok a, faults, os) =>
          (((f a).run faults).1, ((f a).run faults).2.1, os ++ ((f a).run faults).2.2) := rfl

theorem run_bind_ok {p : Calls ε ο α} {f : α → Calls ε ο β} {a : α} {faults rest : List (Option ε)}
    {os : List ο} (h : p.run faults = (.ok a, rest, os)) :
    (p >>= f).run faults =
      (((f a).run rest).1, ((f a).run rest).2.1, os ++ ((f a).run rest).2.2) := by
  rw [run_bind, h]

theorem run_bind_error {p : Calls ε ο α} {f : α → Calls ε ο β} {e : ε}
    {faults rest : List (Option ε)} {os : List ο} (h : p.run faults = (.error e, rest, os)) :
    (p >>= f).run faults = (.error e, rest, os) := by
  rw [run_bind, h]

theorem bind_bind (p : Calls ε ο α) (f : α → Calls ε ο β) (g : β → Calls ε ο γ) :
    p >>= f >>= g = p >>= fun a => f a >>= g := by
  funext faults
  show (p >>= f >>= g).run faults = (p >>= fun a => f a >>= g).run faults
  match hp : p.run faults with
  | (.error e, rest, os) => rw [run_bind_error (run_bind_error hp), run_bind_error hp]
  | (.ok a, rest, os) =>
      match hf : (f a).run rest with
      | (.error e, rest', os') =>
          have h : (p >>= f).run faults = (.error e, rest', os ++ os') := by rw [run_bind_ok hp, hf]
          rw [run_bind_error h, run_bind_ok hp, run_bind_error hf]
      | (.ok b, rest', os') =>
          have h : (p >>= f).run faults = (.ok b, rest', os ++ os') := by rw [run_bind_ok hp, hf]
          rw [run_bind_ok h, run_bind_ok hp, run_bind_ok hf, List.append_assoc]

/-! ## answered calls -/

/-- The first `n` calls are answered. -/
def Answered (n : Nat) (faults : List (Option ε)) : Prop := ∀ e, some e ∉ faults.take n

theorem answered_zero (faults : List (Option ε)) : Answered 0 faults := by simp [Answered]

theorem answered_add {n m : Nat} {faults : List (Option ε)} :
    Answered (n + m) faults ↔ Answered n faults ∧ Answered m (faults.drop n) := by
  simp only [Answered, List.take_add, List.mem_append, not_or]
  exact forall_and

theorem answered_succ {n : Nat} {faults : List (Option ε)} :
    Answered (n + 1) faults ↔ Answered 1 faults ∧ Answered n (faults.drop 1) := by
  rw [Nat.add_comm, answered_add]

/-- A call is answered, or it fails with the fault that the pattern has for it. -/
theorem call_cases (a : α) (faults : List (Option ε)) :
    (Answered 1 faults ∧ (call a : Calls ε ο α).run faults = (.ok a, faults.drop 1, [])) ∨
      ∃ e rest, faults = some e :: rest ∧
        (call a : Calls ε ο α).run faults = (.error e, rest, []) := by
  match faults with
  | [] => exact .inl ⟨by simp [Answered], rfl⟩
  | none :: rest => exact .inl ⟨by simp [Answered], rfl⟩
  | some e :: rest => exact .inr ⟨e, rest, rfl, rfl⟩

theorem not_answered_of_some {n : Nat} {e : ε} {rest : List (Option ε)} :
    ¬ Answered (n + 1) (some e :: rest) := fun h => h e (by simp)

/-- The specification of a program that makes `n` calls: when they are answered it returns
`a` and has emitted `os`; otherwise it fails, and some of `os` is missing. -/
structure Spec (p : Calls ε ο α) (n : Nat) (a : α) (os : List ο) : Prop where
  ok : ∀ faults, Answered n faults → p.run faults = (.ok a, faults.drop n, os)
  err : ∀ faults, ¬ Answered n faults → ∃ e rest os', p.run faults = (.error e, rest, os') ∧
    os'.length ≤ os.length ∧ (os ≠ [] → os'.length < os.length)

theorem Spec.pure (a : α) : Spec (pure a : Calls ε ο α) 0 a [] :=
  ⟨fun _ _ => rfl, fun faults h => absurd (answered_zero faults) h⟩

theorem Spec.emit (o : ο) : Spec (emit o : Calls ε ο Unit) 0 () [o] :=
  ⟨fun _ _ => rfl, fun faults h => absurd (answered_zero faults) h⟩

theorem Spec.call (a : α) : Spec (call a : Calls ε ο α) 1 a [] := by
  constructor
  · intro faults h
    rcases call_cases a faults with ⟨-, hrun⟩ | ⟨e, rest, rfl, -⟩
    · exact hrun
    · exact absurd h not_answered_of_some
  · intro faults h
    rcases call_cases a faults with ⟨hok, -⟩ | ⟨e, rest, rfl, hrun⟩
    · exact absurd hok h
    · exact ⟨e, rest, [], hrun, Nat.le_refl _, fun hne => absurd rfl hne⟩

/-- Programs in sequence.  A program that has emitted goes on to emit more, or makes no
further call. -/
theorem Spec.bind {p : Calls ε ο α} {f : α → Calls ε ο β} {n m : Nat} {a : α} {b : β}
    {os os' : List ο} (hp : Spec p n a os) (hf : Spec (f a) m b os')
    (hlast : os ≠ [] → os' = [] → m = 0) : Spec (p >>= f) (n + m) b (os ++ os') := by
  constructor
  · intro faults h
    obtain ⟨hn, hm⟩ := answered_add.mp h
    rw [run_bind_ok (hp.ok faults hn), hf.ok _ hm, List.drop_drop]
  · intro faults h
    by_cases hn : Answered n faults
    · have hm : ¬ Answered m (faults.drop n) := fun hm => h (answered_add.mpr ⟨hn, hm⟩)
      obtain ⟨e, rest, os₁, hrun, hle, hlt⟩ := hf.err _ hm
      refine ⟨e, rest, os ++ os₁, by rw [run_bind_ok (hp.ok faults hn), hrun], ?_, fun hne => ?_⟩
      · simpa using hle
      · have hne' : os' ≠ [] := by
          intro hnil
          have hos : os ≠ [] := by simpa [hnil] using hne
          rw [hlast hos hnil] at hm
          exact hm (answered_zero _)
        simpa using hlt hne'
    · obtain ⟨e, rest, os₁, hrun, hle, hlt⟩ := hp.err faults hn
      refine ⟨e, rest, os₁, run_bind_error hrun, ?_, fun hne => ?_⟩
      · rw [List.length_append]
        omega
      · rw [List.length_append]
        by_cases hos : os = []
        · have hos' : 0 < os'.length := List.length_pos_iff.mpr (by simpa [hos] using hne)
          rw [hos] at hle ⊢
          simp only [List.length_nil] at hle ⊢
          omega
        · have := hlt hos
          omega

/-- A call comes first. -/
theorem Spec.call_bind {f : α → Calls ε ο β} {a : α} {n : Nat} {b : β} {os : List ο}
    (h : Spec (f a) n b os) : Spec (Calls.call a >>= f) (n + 1) b os := by
  have hbind := (Spec.call a).bind h fun hne => absurd rfl hne
  rwa [Nat.add_comm, List.nil_append] at hbind

/-- A loop whose rounds each emit. -/
theorem Spec.forEach {f : α → Calls ε ο Unit} {n : Nat} {os : α → List ο}
    (h : ∀ a, Spec (f a) n () (os a)) (hemit : ∀ a, os a ≠ []) (as : List α) :
    Spec (forEach f as) (n * as.length) () (as.flatMap os) := by
  induction as with
  | nil => exact Spec.pure ()
  | cons a as ih =>
      rw [List.length_cons, Nat.mul_succ, Nat.add_comm, List.flatMap_cons]
      refine (h a).bind ih fun _ hnil => ?_
      cases as with
      | nil => rfl
      | cons a' as => exact absurd (List.append_eq_nil_iff.mp hnil).1 (hemit a')

/-- A loop that emits without further calls. -/
theorem Spec.forEach_emit (g : α → ο) (as : List α) :
    Spec (Calls.forEach (fun a => Calls.emit (g a)) as : Calls ε ο Unit) 0 ()
      (as.flatMap fun a => [g a]) := by
  have h := Spec.forEach (fun a => Spec.emit (ε := ε) (g a)) (fun _ => List.cons_ne_nil _ _) as
  rwa [Nat.zero_mul] at h

/-- A program emits all its outputs exactly when it has none or its calls are answered. -/
theorem Spec.emitted_iff {p : Calls ε ο α} {n : Nat} {a : α} {os : List ο} (h : Spec p n a os)
    (faults : List (Option ε)) : p.emitted faults = os ↔ os = [] ∨ Answered n faults := by
  constructor
  · intro he
    by_contra hcon
    obtain ⟨hne, hnot⟩ := not_or.mp hcon
    obtain ⟨e, rest, os', hrun, -, hlt⟩ := h.err faults hnot
    rw [emitted, hrun] at he
    have := hlt hne
    simp only at he
    rw [he] at this
    exact absurd this (Nat.lt_irrefl _)
  · intro hor
    by_cases ha : Answered n faults
    · rw [emitted, h.ok faults ha]
    · obtain ⟨e, rest, os', hrun, hle, -⟩ := h.err faults ha
      rw [hor.resolve_right ha] at hle ⊢
      rw [emitted, hrun]
      exact List.length_eq_zero_iff.mp (Nat.le_zero.mp hle)

/-! ## retried calls -/

/-- Some of the first `n` calls is answered. -/
def SomeAnswered (n : Nat) (faults : List (Option ε)) : Prop :=
  ∃ k < n, ∀ e, faults[k]? ≠ some (some e)

theorem run_retry_succ (e : ε) (p : Calls ε ο α) (n : Nat) (faults : List (Option ε)) :
    (retry e p (n + 1)).run faults =
      match p.run faults with
      | (.ok a, faults, os) => (.ok a, faults, os)
      | (.error _, faults, os) =>
          (((retry e p n).run faults).1, ((retry e p n).run faults).2.1,
            os ++ ((retry e p n).run faults).2.2) := rfl

/-- A retried call succeeds exactly when one of the tries is answered; it emits nothing. -/
theorem run_retry_call (e : ε) (a : α) (n : Nat) (faults : List (Option ε)) :
    (SomeAnswered n faults ∧
        ∃ rest, (retry e (call a : Calls ε ο α) n).run faults = (.ok a, rest, [])) ∨
      (¬ SomeAnswered n faults ∧
        ∃ e' rest, (retry e (call a : Calls ε ο α) n).run faults = (.error e', rest, [])) := by
  induction n generalizing faults with
  | zero => exact .inr ⟨fun ⟨k, hk, _⟩ => absurd hk (Nat.not_lt_zero k), e, faults, rfl⟩
  | succ n ih =>
      rw [run_retry_succ]
      rcases call_cases (ο := ο) a faults with ⟨hok, hrun⟩ | ⟨e', rest, rfl, hrun⟩
      · refine .inl ⟨⟨0, Nat.succ_pos n, fun e he => hok e ?_⟩, faults.drop 1, by rw [hrun]⟩
        rw [List.mem_iff_getElem?]
        exact ⟨0, by simpa using he⟩
      · rw [hrun]
        rcases ih rest with ⟨⟨k, hk, hans⟩, rest', hrest⟩ | ⟨hnot, e₁, rest', hrest⟩
        · refine .inl ⟨⟨k + 1, Nat.succ_lt_succ hk, by simpa using hans⟩, rest', ?_⟩
          simp only [hrest, List.append_nil]
        · refine .inr ⟨?_, e₁, rest', by simp only [hrest, List.append_nil]⟩
          rintro ⟨k, hk, hans⟩
          cases k with
          | zero => exact hans e' rfl
          | succ k => exact hnot ⟨k, Nat.lt_of_succ_lt_succ hk, by simpa using hans⟩

/-! ## what is emitted after a call -/

theorem emitted_call_bind (a : α) (f : α → Calls ε ο β) (faults : List (Option ε)) :
    (Answered 1 faults ∧ (call a >>= f).emitted faults = (f a).emitted (faults.drop 1)) ∨
      (¬ Answered 1 faults ∧ (call a >>= f).emitted faults = []) := by
  rcases call_cases a faults with ⟨hok, hrun⟩ | ⟨e, rest, rfl, hrun⟩
  · exact .inl ⟨hok, by rw [emitted, run_bind_ok hrun, List.nil_append]; rfl⟩
  · exact .inr ⟨not_answered_of_some, by rw [emitted, run_bind_error hrun]⟩

theorem emitted_retry_bind (e : ε) (a : α) (n : Nat) (f : α → Calls ε ο β)
    (faults : List (Option ε)) :
    (SomeAnswered n faults ∧
        ∃ rest, (retry e (call a) n >>= f).emitted faults = (f a).emitted rest) ∨
      (¬ SomeAnswered n faults ∧ (retry e (call a) n >>= f).emitted faults = []) := by
  rcases run_retry_call e a n faults with ⟨hok, rest, hrun⟩ | ⟨hnot, e', rest, hrun⟩
  · exact .inl ⟨hok, rest, by rw [emitted, run_bind_ok hrun, List.nil_append]; rfl⟩
  · exact .inr ⟨hnot, by rw [emitted, run_bind_error hrun]⟩

end Calls

/-! ## workers -/

open Calls

/-- A worker: what it does before it takes an item, what it does with the item, and whether
it stops after so many failed attempts, the last one with the error given. -/
structure Worker (ι ε ο : Type) where
  before : Calls ε ο Unit
  process : ι → Calls ε ο Unit
  stops : Nat → ε → Bool

/-- The state of a worker: the items that wait, the number of failed attempts, and for each
item taken the faults that met it and what was emitted. -/
structure State (ι ε ο : Type) where
  queue : List ι
  attempts : Nat
  running : Bool
  rounds : List (ι × List (Option ε) × List ο)

/-- The items that the worker has taken. -/
def State.received (s : State ι ε ο) : List ι := s.rounds.map fun r => r.1

/-- Everything that the worker has emitted. -/
def State.emitted (s : State ι ε ο) : List ο := s.rounds.flatMap fun r => r.2.2

namespace Worker

variable (worker : Worker ι ε ο)

def start (queue : List ι) : State ι ε ο :=
  { queue
    attempts := 0
    running := true
    rounds := [] }

/-- The retry loop after an error. -/
def failed (s : State ι ε ο) (e : ε) : State ι ε ο :=
  { s with
    attempts := s.attempts + 1
    running := !worker.stops (s.attempts + 1) e }

/-- One round of the inner loop, with the faults of its calls: an error before an item is
taken leaves the queue alone, an error after that leaves the item behind. -/
def round (s : State ι ε ο) (faults : List (Option ε)) : State ι ε ο :=
  if s.running then
    match worker.before.run faults with
    | (.error e, _, _) => worker.failed s e
    | (.ok (), faults, _) =>
        match s.queue with
        | [] => s
        | item :: queue =>
            let (r, _, os) := (worker.process item).run faults
            let s := { s with queue, rounds := (item, faults, os) :: s.rounds }
            match r with
            | .ok () => s
            | .error e => worker.failed s e
  else s

/-- The state after a sequence of rounds. -/
def run (queue : List ι) (pattern : List (List (Option ε))) : State ι ε ο :=
  pattern.foldl worker.round (start queue)

/-- Every item taken was taken once in a round that emitted all its outputs. -/
def Complete (outputs : ι → List ο) (s : State ι ε ο) : Prop :=
  ∀ item ∈ s.received, ∃ faults, (item, faults, outputs item) ∈ s.rounds

variable {worker}

theorem mem_emitted_of_complete {outputs : ι → List ο} {s : State ι ε ο} (h : Complete outputs s)
    {item : ι} (hitem : item ∈ s.received) {o : ο} (ho : o ∈ outputs item) : o ∈ s.emitted := by
  obtain ⟨faults, hmem⟩ := h item hitem
  exact List.mem_flatMap.mpr ⟨_, hmem, ho⟩

/-- The record holds what the program emits under the faults of the round. -/
def Recorded (worker : Worker ι ε ο) (s : State ι ε ο) : Prop :=
  ∀ item faults os, (item, faults, os) ∈ s.rounds → os = (worker.process item).emitted faults

theorem Recorded.round {s : State ι ε ο} (h : Recorded worker s) (faults : List (Option ε)) :
    Recorded worker (worker.round s faults) := by
  unfold Worker.round
  split
  · split
    · exact h
    · next faults' _ _ =>
        split
        · exact h
        · next item queue _ =>
            have hnew : Recorded worker
                { s with
                  queue
                  rounds := (item, faults', ((worker.process item).run faults').2.2) :: s.rounds } := by
              intro item' faults'' os hmem
              rcases List.mem_cons.mp hmem with heq | hold
              · cases heq
                rfl
              · exact h item' faults'' os hold
            simp only
            split
            · exact hnew
            · exact hnew
  · exact h

theorem recorded_run (queue : List ι) (pattern : List (List (Option ε))) :
    Recorded worker (worker.run queue pattern) := by
  suffices hfold : ∀ s, Recorded worker s → Recorded worker (pattern.foldl worker.round s) from
    hfold (start queue) (by simp [Recorded, start])
  induction pattern with
  | nil => exact fun s hs => hs
  | cons faults pattern ih => exact fun s hs => ih _ (hs.round faults)

/-- **What a worker drops**: when a round emits all outputs of its item exactly under the
faults that `answered` describes, a run is complete exactly when every item that has outputs
was taken once under such faults. -/
theorem complete_run_iff {outputs : ι → List ο} {answered : ι → List (Option ε) → Prop}
    (hspec : ∀ item faults, (worker.process item).emitted faults = outputs item ↔
      outputs item = [] ∨ answered item faults)
    (queue : List ι) (pattern : List (List (Option ε))) :
    Complete outputs (worker.run queue pattern) ↔
      ∀ item ∈ (worker.run queue pattern).received, outputs item = [] ∨
        ∃ faults os, (item, faults, os) ∈ (worker.run queue pattern).rounds ∧
          answered item faults := by
  have hrec : Recorded worker (worker.run queue pattern) := recorded_run queue pattern
  constructor
  · intro h item hitem
    obtain ⟨faults, hmem⟩ := h item hitem
    rcases (hspec item faults).mp (hrec item faults _ hmem).symm with hnil | hans
    · exact .inl hnil
    · exact .inr ⟨faults, _, hmem, hans⟩
  · intro h item hitem
    rcases h item hitem with hnil | ⟨faults, os, hmem, hans⟩
    · obtain ⟨⟨taken, faults, os⟩, hmem, rfl⟩ := List.mem_map.mp hitem
      refine ⟨faults, ?_⟩
      rw [← (hspec taken faults).mpr (.inl hnil), ← hrec _ _ _ hmem]
      exact hmem
    · refine ⟨faults, ?_⟩
      rw [← (hspec item faults).mpr (.inr hans), ← hrec _ _ _ hmem]
      exact hmem

end Worker

end Pipeline
