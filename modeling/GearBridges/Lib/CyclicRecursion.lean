import Mathlib.Logic.Basic

/-!
# Lib.CyclicRecursion

Proofs of a circuit that verifies proofs of itself.  A layer checks its inner public
inputs and, unless it is the first one, verifies the inner proof with the verifier key
that both carry in their public inputs.  Verification with a key is sound for the
circuit of that key; keys of other circuits are anybody's choice.

* `Layers` — public inputs proven by layers of the one circuit all the way down;
* `Accepted` — public inputs and carried key of the proofs accepted under a key;
* `Accepted.layers`, `Accepted.carry` — a carried own key gives `Layers`; any other key
  can be carried as well.
-/

namespace CyclicRecursion

variable {X K : Type*}

/-- Proven by layers of one circuit down to a first one.  `layer condition inner outer`
are the constraints of a layer; `condition` is false in the first one. -/
inductive Layers (layer : Bool → X → X → Prop) : X → Prop
  | layer {condition : Bool} {inner outer : X} (hlayer : layer condition inner outer)
      (hinner : condition = true → Layers layer inner) : Layers layer outer

section

variable (layer : Bool → X → X → Prop) (own : K) (foreign : K → X → K → Prop)

/-- `Accepted key x carried`: a proof with public inputs `x` and carried key `carried` is
accepted under `key`.  Under its own key the circuit equates the inner and the outer
carried key; under any other key what `foreign` says of that key's circuit holds. -/
inductive Accepted : K → X → K → Prop
  | layer {condition : Bool} {inner outer : X} {carried : K}
      (hlayer : layer condition inner outer)
      (hinner : condition = true → Accepted carried inner carried) : Accepted own outer carried
  | foreign {key carried : K} {x : X} (hkey : key ≠ own) (h : foreign key x carried) :
      Accepted key x carried

/-- Every accepted proof that meets `p` carries the circuit's own key and consists of
layers of the circuit. -/
def Anchored (p : X → Prop) : Prop :=
  ∀ x carried, Accepted layer own foreign own x carried → p x → carried = own ∧ Layers layer x

/-- No accepted proof meets `p`. -/
def Rejects (p : X → Prop) : Prop :=
  ∀ x carried, Accepted layer own foreign own x carried → ¬ p x

/-- Some other circuit accepts all public inputs. -/
def Forgeable : Prop := ∃ key, key ≠ own ∧ ∀ x carried, foreign key x carried

end

variable {layer : Bool → X → X → Prop} {own : K} {foreign : K → X → K → Prop}

/-- A proof that carries the circuit's own key consists of its layers: the key of every
inner proof is the carried one. -/
theorem Accepted.layers {key carried : K} {x : X} (h : Accepted layer own foreign key x carried)
    (hkey : key = own) (hcarried : carried = own) : Layers layer x := by
  induction h with
  | layer hlayer _ ih => exact .layer hlayer fun hcond => ih hcond hcarried hcarried
  | foreign hne _ => exact absurd hkey hne

/-- What is accepted is accepted with a carried key under which anything verifies. -/
theorem Accepted.carry {x : X} {carried key : K} (h : Accepted layer own foreign own x carried)
    (hkey : key ≠ own) (hforeign : ∀ x carried, foreign key x carried) :
    Accepted layer own foreign own x key := by
  cases h with
  | layer hlayer _ => exact .layer hlayer fun _ => .foreign hkey (hforeign _ _)
  | foreign hne _ => exact absurd rfl hne

/-- **No check, no anchor**: without a check of the carried key the accepted proofs are
anchored only if there are none. -/
theorem anchored_iff_rejects (hforgeable : Forgeable own foreign) (p : X → Prop) :
    Anchored layer own foreign p ↔ Rejects layer own foreign p := by
  obtain ⟨key, hkey, hforeign⟩ := hforgeable
  constructor
  · intro h x carried haccepted hp
    exact hkey (h x key (haccepted.carry hkey hforeign) hp).1
  · intro h x carried haccepted hp
    exact absurd hp (h x carried haccepted)

end CyclicRecursion
