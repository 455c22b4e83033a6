import GearBridges.Lib.Digits
import GearBridges.Lib.Goldilocks

/-!
# GnarkWrapper.Compression

The public variables of the gnark wrapper around the plonky2 proof: the public inputs of
the proof, each below `2 ^ 32`, and their compression by six into elements of the scalar
field of BN254.
-/

namespace GearBridges.GnarkWrapper

open Digits

def publicInputCompressionFactor : Nat := 6

def maxInnerPublicInputBits : Nat := 32

/-- The factor of the input at offset `j` of its group. -/
def exponent (j : Nat) : Nat := 2 ^ ((publicInputCompressionFactor - j - 1) * maxInnerPublicInputBits)

/-- `compressPublicInputs`.  The last group may be short: the inner loop breaks at the end
of the inputs. -/
def compressPublicInputs (pis : List Nat) : List Nat :=
  let compressedLen :=
    (pis.length + publicInputCompressionFactor - 1) / publicInputCompressionFactor
  (List.range compressedLen).map fun i =>
    (List.range publicInputCompressionFactor).foldl
      (fun compressed j =>
        match pis[i * publicInputCompressionFactor + j]? with
        | some publicInput => compressed + exponent j * publicInput
        | none => compressed) 0

/-- The fields of `Plonky2VerifierCircuit` assigned from the public inputs of the proof. -/
structure Plonky2VerifierCircuit where
  compressedPublicInputs : List Nat
  publicInputs : List Nat
deriving DecidableEq

/-- `deserializeCircuit`; `none` is the panic at an input of more than 32 bits. -/
def deserializeCircuit (limbs : List Nat) : Option Plonky2VerifierCircuit :=
  let publicInputs := limbs.map (· % Goldilocks.modulus)
  if ∀ reduced ∈ publicInputs, reduced < 2 ^ maxInnerPublicInputBits then
    some ⟨compressPublicInputs limbs, publicInputs⟩
  else none

/-- The order of the scalar field of BN254. -/
def scalarField : Nat :=
  21888242871839275222246405745257275088548364400416034343698204186575808495617

/-- What `Define` asserts of the compressed inputs, in the scalar field. -/
def Plonky2VerifierCircuit.define (c : Plonky2VerifierCircuit) : Prop :=
  ∀ i (h : i < c.compressedPublicInputs.length),
    (c.compressedPublicInputs.get ⟨i, h⟩ : ZMod scalarField) =
      (List.range publicInputCompressionFactor).foldl
        (fun compressed j =>
          match c.publicInputs[i * publicInputCompressionFactor + j]? with
          | some publicInput => compressed + (publicInput : ZMod scalarField) * (exponent j : Nat)
          | none => compressed) 0

/-- The assigned compression satisfies the circuit. -/
theorem define_compressPublicInputs (pis : List Nat) :
    (⟨compressPublicInputs pis, pis⟩ : Plonky2VerifierCircuit).define := by
  intro i h
  rw [List.get_eq_getElem]
  simp only [compressPublicInputs, List.getElem_map, List.getElem_range]
  symm
  conv_lhs => rw [← Nat.cast_zero]
  apply List.foldl_hom (Nat.cast : Nat → ZMod scalarField)
  intro compressed j
  cases pis[i * publicInputCompressionFactor + j]? with
  | none => rfl
  | some publicInput =>
      push_cast
      ring

/-- Canonical small inputs are taken as they are. -/
theorem deserializeCircuit_of_lt {limbs : List Nat} (h : ∀ x ∈ limbs, x < 2 ^ 32) :
    deserializeCircuit limbs = some ⟨compressPublicInputs limbs, limbs⟩ := by
  have hreduced : limbs.map (· % Goldilocks.modulus) = limbs := by
    conv_rhs => rw [← List.map_id limbs]
    apply List.map_congr_left
    intro x hx
    have := h x hx
    exact Nat.mod_eq_of_lt (by unfold Goldilocks.modulus; omega)
  rw [deserializeCircuit, hreduced]
  exact if_pos h

/-- Nine inputs are compressed into two words, the second padded with three zeros. -/
theorem compressPublicInputs_nine {upper lower : List Nat} (hupper : upper.length = 6)
    (hlower : lower.length = 2) (x : Nat) :
    compressPublicInputs (upper ++ lower ++ [x]) =
      [ofBE (2 ^ 32) upper, ofBE (2 ^ 32) (lower ++ [x, 0, 0, 0])] := by
  obtain ⟨x₀, x₁, x₂, x₃, x₄, x₅, rfl⟩ : ∃ x₀ x₁ x₂ x₃ x₄ x₅, upper = [x₀, x₁, x₂, x₃, x₄, x₅] := by
    match upper, hupper with
    | [x₀, x₁, x₂, x₃, x₄, x₅], _ => exact ⟨x₀, x₁, x₂, x₃, x₄, x₅, rfl⟩
  obtain ⟨x₆, x₇, rfl⟩ : ∃ x₆ x₇, lower = [x₆, x₇] := by
    match lower, hlower with
    | [x₆, x₇], _ => exact ⟨x₆, x₇, rfl⟩
  simp only [compressPublicInputs, publicInputCompressionFactor, List.length_cons, List.length_nil,
    exponent, maxInnerPublicInputBits, ofBE, List.reverse_cons, List.reverse_nil, List.nil_append,
    List.cons_append, Nat.ofDigits_cons, Nat.ofDigits_nil]
  simp [List.range_succ]
  constructor <;> ring

end GearBridges.GnarkWrapper
