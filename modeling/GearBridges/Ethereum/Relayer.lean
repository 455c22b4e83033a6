import GearBridges.Lib.Digits
import GearBridges.Ethereum.MessageQueue

/-!
# Ethereum.Relayer

The `Relayer` contract, which keeps the Merkle roots relayed from Gear, and the part of
`MessageQueue` that reads it.  The plonk verifier is a parameter: `none` is a verifier
call that reverts.  A call that reverts changes nothing, so a run is a fold over the
calls made (`State.run`).
-/

namespace GearBridges.Relayer

open MessageQueue Digits

/-! ## public inputs -/

/-- `uint256`. -/
abbrev Word := BitVec 256

/-- `uint256(merkle_root)`. -/
def toWord (merkleRoot : FixedBytes 32) : Word := BitVec.ofNat 256 (ofBytesBE merkleRoot.val)

def mask32Bits : Word := BitVec.ofNat 256 (2 ^ 32 - 1)

def mask64Bits : Word := BitVec.ofNat 256 (2 ^ 64 - 1)

def mask192Bits : Word := BitVec.ofNat 256 (2 ^ 192 - 1)

/-- `_buildPublicInputs`. -/
def buildPublicInputs (blockNumber : Word) (merkleRoot : FixedBytes 32) : List Word :=
  [(toWord merkleRoot >>> 64) &&& mask192Bits,
    ((blockNumber &&& mask32Bits) <<< 96) ||| ((toWord merkleRoot &&& mask64Bits) <<< 128)]

theorem toNat_toWord (merkleRoot : FixedBytes 32) :
    (toWord merkleRoot).toNat = ofBytesBE merkleRoot.val := by
  have h := ofBytesBE_lt merkleRoot.val
  rw [merkleRoot.property] at h
  rw [toWord, BitVec.toNat_ofNat, Nat.mod_eq_of_lt (by omega)]

theorem toWord_inj {r r' : FixedBytes 32} (h : toWord r = toWord r') : r = r' := by
  apply Subtype.ext
  apply ofBytesBE_inj (r.property.trans r'.property.symm)
  rw [← toNat_toWord, ← toNat_toWord, h]

theorem toNat_and_mask (x : Word) {n : Nat} (hn : n ≤ 256) :
    (x &&& BitVec.ofNat 256 (2 ^ n - 1)).toNat = x.toNat % 2 ^ n := by
  have hlt : 2 ^ n - 1 < 2 ^ 256 :=
    Nat.lt_of_lt_of_le (Nat.sub_lt (Nat.two_pow_pos n) Nat.one_pos)
      (Nat.pow_le_pow_right (by decide) hn)
  rw [BitVec.toNat_and, BitVec.toNat_ofNat, Nat.mod_eq_of_lt hlt, Nat.and_two_pow_sub_one_eq_mod]

/-- The first input holds the upper 24 bytes of the root. -/
theorem toNat_upper (merkleRoot : FixedBytes 32) :
    ((toWord merkleRoot >>> 64) &&& mask192Bits).toNat = ofBytesBE merkleRoot.val / 2 ^ 64 := by
  have h := (toWord merkleRoot).isLt
  rw [toNat_toWord] at h
  rw [mask192Bits, toNat_and_mask _ (by decide), BitVec.toNat_ushiftRight,
    Nat.shiftRight_eq_div_pow, toNat_toWord]
  omega

/-- The second holds its lower 8 bytes and then the lower 4 bytes of the block number. -/
theorem toNat_lower (blockNumber : Word) (merkleRoot : FixedBytes 32) :
    (((blockNumber &&& mask32Bits) <<< 96) ||| ((toWord merkleRoot &&& mask64Bits) <<< 128)).toNat =
      ofBytesBE merkleRoot.val % 2 ^ 64 * 2 ^ 128 + blockNumber.toNat % 2 ^ 32 * 2 ^ 96 := by
  have hblock : ((blockNumber &&& mask32Bits) <<< 96).toNat =
      blockNumber.toNat % 2 ^ 32 * 2 ^ 96 := by
    rw [BitVec.toNat_shiftLeft, mask32Bits, toNat_and_mask _ (by decide), Nat.shiftLeft_eq]
    omega
  have hroot : ((toWord merkleRoot &&& mask64Bits) <<< 128).toNat =
      (ofBytesBE merkleRoot.val % 2 ^ 64) <<< 128 := by
    rw [BitVec.toNat_shiftLeft, mask64Bits, toNat_and_mask _ (by decide), toNat_toWord,
      Nat.shiftLeft_eq]
    omega
  rw [BitVec.toNat_or, hblock, hroot, Nat.or_comm,
    ← Nat.shiftLeft_add_eq_or_of_lt (by omega), Nat.shiftLeft_eq]

/-- Two pairs have the same public inputs when their roots are equal and their block
numbers agree in the lowest 32 bits. -/
theorem buildPublicInputs_eq_iff (b b' : Word) (r r' : FixedBytes 32) :
    buildPublicInputs b r = buildPublicInputs b' r' ↔
      r = r' ∧ b.toNat % 2 ^ 32 = b'.toNat % 2 ^ 32 := by
  constructor
  · intro h
    simp only [buildPublicInputs, List.cons.injEq, and_true] at h
    have hupper := congrArg BitVec.toNat h.1
    have hlower := congrArg BitVec.toNat h.2
    rw [toNat_upper, toNat_upper] at hupper
    rw [toNat_lower, toNat_lower] at hlower
    refine ⟨toWord_inj (BitVec.eq_of_toNat_eq ?_), ?_⟩
    · rw [toNat_toWord, toNat_toWord]
      omega
    · omega
  · rintro ⟨rfl, hb⟩
    have hmask : b &&& mask32Bits = b' &&& mask32Bits := by
      apply BitVec.eq_of_toNat_eq
      rw [mask32Bits, toNat_and_mask _ (by decide), toNat_and_mask _ (by decide), hb]
    rw [buildPublicInputs, buildPublicInputs, hmask]

/-! ## the contract -/

inductive Error
  | emergencyStop
  | invalidProof
  | verifierReverted
deriving DecidableEq, Repr

/-- `bytes32(0)`, which stands for "no root". -/
def zeroRoot : FixedBytes 32 := ⟨List.replicate 32 0, by simp⟩

/-- The storage of the contract and the `MerkleRoot` events emitted, newest first. -/
structure State where
  blockNumbers : Word → FixedBytes 32
  merkleRoots : FixedBytes 32 → Word
  emergencyStop : Bool
  events : List (Word × FixedBytes 32)

def State.deployed : State := ⟨fun _ => zeroRoot, fun _ => 0, false, []⟩

/-- `getMerkleRoot`. -/
def State.getMerkleRoot (s : State) (blockNumber : Word) : Except Error (FixedBytes 32) :=
  if s.emergencyStop then .error .emergencyStop else .ok (s.blockNumbers blockNumber)

/-- `getBlockNumber`. -/
def State.getBlockNumber (s : State) (merkleRoot : FixedBytes 32) : Word :=
  s.merkleRoots merkleRoot

section

variable (verifyProof : Bytes → List Word → Option Bool)

/-- `submitMerkleRoot`. -/
def State.submitMerkleRoot (s : State) (blockNumber : Word) (merkleRoot : FixedBytes 32)
    (proof : Bytes) : Except Error State :=
  if s.emergencyStop then .error .emergencyStop
  else
    match verifyProof proof (buildPublicInputs blockNumber merkleRoot) with
    | none => .error .verifierReverted
    | some false => .error .invalidProof
    | some true =>
        let origMerkleRoot := s.blockNumbers blockNumber
        let emergencyStop := decide (origMerkleRoot ≠ zeroRoot ∧ origMerkleRoot ≠ merkleRoot)
        if emergencyStop then .ok { s with emergencyStop }
        else
          .ok
            { blockNumbers := Function.update s.blockNumbers blockNumber merkleRoot
              merkleRoots := Function.update s.merkleRoots merkleRoot blockNumber
              emergencyStop
              events := (blockNumber, merkleRoot) :: s.events }

/-- A call of `submitMerkleRoot`. -/
structure Call where
  blockNumber : Word
  merkleRoot : FixedBytes 32
  proof : Bytes
deriving DecidableEq

/-- The verifier accepts the proof for the public inputs built from the arguments. -/
def Call.verified (c : Call) : Bool :=
  verifyProof c.proof (buildPublicInputs c.blockNumber c.merkleRoot) = some true

/-- One transaction: a revert leaves the state as it was. -/
def State.apply (s : State) (c : Call) : State :=
  match s.submitMerkleRoot verifyProof c.blockNumber c.merkleRoot c.proof with
  | .ok s' => s'
  | .error _ => s

/-- The state after a sequence of calls. -/
def State.run (s : State) (calls : List Call) : State := calls.foldl (State.apply verifyProof) s

/-! ## one call -/

variable {verifyProof}

/-- The root stored for the block of the call is another one. -/
def Call.clashes (c : Call) (s : State) : Prop :=
  s.blockNumbers c.blockNumber ≠ zeroRoot ∧ s.blockNumbers c.blockNumber ≠ c.merkleRoot

theorem apply_of_stopped {s : State} (h : s.emergencyStop = true) (c : Call) :
    s.apply verifyProof c = s := by
  rw [State.apply, State.submitMerkleRoot, if_pos h]

theorem apply_of_not_verified (s : State) {c : Call} (h : c.verified verifyProof = false) :
    s.apply verifyProof c = s := by
  have hne : verifyProof c.proof (buildPublicInputs c.blockNumber c.merkleRoot) ≠ some true :=
    of_decide_eq_false h
  by_cases hs : s.emergencyStop = true
  · exact apply_of_stopped hs c
  · rw [State.apply, State.submitMerkleRoot, if_neg hs]
    cases hp : verifyProof c.proof (buildPublicInputs c.blockNumber c.merkleRoot) with
    | none => rfl
    | some accepted =>
        cases accepted with
        | false => rfl
        | true => exact absurd hp hne

theorem apply_of_clashes {s : State} (hs : s.emergencyStop = false) {c : Call}
    (hv : c.verified verifyProof = true) (hc : c.clashes s) :
    s.apply verifyProof c = { s with emergencyStop := true } := by
  have hv : verifyProof c.proof (buildPublicInputs c.blockNumber c.merkleRoot) = some true :=
    of_decide_eq_true hv
  have hstop : decide (s.blockNumbers c.blockNumber ≠ zeroRoot ∧
      s.blockNumbers c.blockNumber ≠ c.merkleRoot) = true := decide_eq_true hc
  simp [State.apply, State.submitMerkleRoot, hs, hv, hstop]

theorem apply_of_not_clashes {s : State} (hs : s.emergencyStop = false) {c : Call}
    (hv : c.verified verifyProof = true) (hc : ¬ c.clashes s) :
    s.apply verifyProof c =
      { blockNumbers := Function.update s.blockNumbers c.blockNumber c.merkleRoot
        merkleRoots := Function.update s.merkleRoots c.merkleRoot c.blockNumber
        emergencyStop := false
        events := (c.blockNumber, c.merkleRoot) :: s.events } := by
  have hv : verifyProof c.proof (buildPublicInputs c.blockNumber c.merkleRoot) = some true :=
    of_decide_eq_true hv
  have hstop : decide (s.blockNumbers c.blockNumber ≠ zeroRoot ∧
      s.blockNumbers c.blockNumber ≠ c.merkleRoot) = false := decide_eq_false hc
  simp [State.apply, State.submitMerkleRoot, hs, hv, hstop]

/-! ## sequences of calls -/

/-- The calls whose proofs the verifier accepts. -/
def acceptedCalls (verifyProof : Bytes → List Word → Option Bool) (calls : List Call) : List Call :=
  calls.filter fun c => c.verified verifyProof

/-- An earlier call of the list gave the block another root, not the zero root. -/
def Call.contradicts (c : Call) (earlier : List Call) : Prop :=
  ∃ e ∈ earlier, e.blockNumber = c.blockNumber ∧ e.merkleRoot ≠ zeroRoot ∧
    e.merkleRoot ≠ c.merkleRoot

/-- Some call of the list contradicts the ones before it. -/
def Contradictory (calls : List Call) : Prop :=
  ∃ earlier c later, calls = earlier ++ c :: later ∧ c.contradicts earlier

theorem not_contradictory_nil : ¬ Contradictory [] := by
  rintro ⟨earlier, c, later, h, _⟩
  cases earlier <;> simp at h

theorem contradictory_concat (calls : List Call) (c : Call) :
    Contradictory (calls ++ [c]) ↔ Contradictory calls ∨ c.contradicts calls := by
  constructor
  · rintro ⟨earlier, d, later, h, hd⟩
    cases later using List.reverseRecOn with
    | nil =>
        obtain ⟨h₁, h₂⟩ := List.append_inj' h rfl
        cases h₂
        exact .inr (h₁ ▸ hd)
    | append_singleton later last _ =>
        rw [← List.cons_append, ← List.append_assoc] at h
        exact .inl ⟨earlier, d, later, (List.append_inj' h rfl).1, hd⟩
  · rintro (⟨earlier, d, later, rfl, hd⟩ | hc)
    · exact ⟨earlier, d, later ++ [c], by simp, hd⟩
    · exact ⟨calls, c, [], rfl, hc⟩

/-- What the storage says about the accepted calls while the contract is not stopped. -/
structure Records (accepted : List Call) (s : State) : Prop where
  /-- A block keeps the root it was given. -/
  root : ∀ c ∈ accepted, c.merkleRoot ≠ zeroRoot → s.blockNumbers c.blockNumber = c.merkleRoot
  /-- Every root was given. -/
  origin : ∀ b, s.blockNumbers b ≠ zeroRoot →
    ∃ c ∈ accepted, c.blockNumber = b ∧ c.merkleRoot = s.blockNumbers b
  /-- The block of a root has this root. -/
  number : ∀ c ∈ accepted, c.merkleRoot ≠ zeroRoot →
    s.blockNumbers (s.merkleRoots c.merkleRoot) = c.merkleRoot

theorem records_deployed : Records [] State.deployed where
  root := by simp
  origin := fun b hb => absurd rfl hb
  number := by simp

/-- The stored root is the one an earlier call gave. -/
theorem Records.clashes_iff {accepted : List Call} {s : State} (h : Records accepted s) (c : Call) :
    c.clashes s ↔ c.contradicts accepted := by
  constructor
  · rintro ⟨hzero, hroot⟩
    obtain ⟨e, he, hblock, hmerkle⟩ := h.origin _ hzero
    exact ⟨e, he, hblock, hmerkle ▸ hzero, hmerkle ▸ hroot⟩
  · rintro ⟨e, he, hblock, hzero, hroot⟩
    have hstored := h.root e he hzero
    rw [hblock] at hstored
    exact ⟨hstored ▸ hzero, hstored ▸ hroot⟩

theorem Records.apply {accepted : List Call} {s : State} (h : Records accepted s)
    (hs : s.emergencyStop = false) {c : Call} (hv : c.verified verifyProof = true)
    (hc : ¬ c.clashes s) : Records (accepted ++ [c]) (s.apply verifyProof c) := by
  -- a block with a root either is not the block of the call or has the root of the call
  have hkeep : ∀ b, s.blockNumbers b ≠ zeroRoot →
      Function.update s.blockNumbers c.blockNumber c.merkleRoot b = s.blockNumbers b := by
    intro b hb
    by_cases hbc : b = c.blockNumber
    · subst hbc
      rw [Function.update_self]
      by_contra hne
      exact hc ⟨hb, Ne.symm hne⟩
    · rw [Function.update_of_ne hbc]
  rw [apply_of_not_clashes hs hv hc]
  constructor
  · intro e he hzero
    rw [List.mem_append, List.mem_singleton] at he
    cases he with
    | inl he =>
        have hroot := h.root e he hzero
        exact (hkeep _ (ne_of_eq_of_ne hroot hzero)).trans hroot
    | inr he =>
        subst he
        exact Function.update_self ..
  · intro b hb
    by_cases hbc : b = c.blockNumber
    · subst hbc
      exact ⟨c, by simp, rfl, by simp⟩
    · have hsame : Function.update s.blockNumbers c.blockNumber c.merkleRoot b =
          s.blockNumbers b := Function.update_of_ne hbc ..
      obtain ⟨e, he, hblock, hmerkle⟩ := h.origin b (hsame ▸ hb)
      exact ⟨e, List.mem_append_left _ he, hblock, hmerkle.trans hsame.symm⟩
  · intro e he hzero
    by_cases hroot : e.merkleRoot = c.merkleRoot
    · simp [hroot]
    · have he : e ∈ accepted := by
        rw [List.mem_append, List.mem_singleton] at he
        exact he.resolve_right fun heq => hroot (heq ▸ rfl)
      have hnumber := h.number e he hzero
      simp only [Function.update_of_ne hroot]
      exact (hkeep _ (ne_of_eq_of_ne hnumber hzero)).trans hnumber

variable (verifyProof) in
/-- Either no call contradicted the ones before it and the storage records the calls, or
the contract is stopped. -/
theorem run_deployed (calls : List Call) :
    ((State.deployed.run verifyProof calls).emergencyStop = false ∧
      ¬ Contradictory (acceptedCalls verifyProof calls) ∧
      Records (acceptedCalls verifyProof calls) (State.deployed.run verifyProof calls)) ∨
    ((State.deployed.run verifyProof calls).emergencyStop = true ∧
      Contradictory (acceptedCalls verifyProof calls)) := by
  induction calls using List.reverseRecOn with
  | nil => exact .inl ⟨rfl, not_contradictory_nil, records_deployed⟩
  | append_singleton calls c ih =>
      have hrun : State.deployed.run verifyProof (calls ++ [c]) =
          (State.deployed.run verifyProof calls).apply verifyProof c := by
        rw [State.run, List.foldl_append]
        rfl
      rw [hrun]
      cases hv : c.verified verifyProof with
      | false =>
          have hacc : acceptedCalls verifyProof (calls ++ [c]) = acceptedCalls verifyProof calls := by
            simp [acceptedCalls, hv]
          rw [hacc, apply_of_not_verified _ hv]
          exact ih
      | true =>
          have hacc : acceptedCalls verifyProof (calls ++ [c]) =
              acceptedCalls verifyProof calls ++ [c] := by
            simp [acceptedCalls, hv]
          rw [hacc, contradictory_concat]
          cases ih with
          | inr ih =>
              rw [apply_of_stopped ih.1]
              exact .inr ⟨ih.1, .inl ih.2⟩
          | inl ih =>
              obtain ⟨hs, hcon, hrec⟩ := ih
              by_cases hc : c.clashes (State.deployed.run verifyProof calls)
              · rw [apply_of_clashes hs hv hc]
                exact .inr ⟨rfl, .inr ((hrec.clashes_iff c).mp hc)⟩
              · refine .inl ⟨?_, ?_, hrec.apply hs hv hc⟩
                · rw [apply_of_not_clashes hs hv hc]
                · rw [not_or, ← hrec.clashes_iff]
                  exact ⟨hcon, hc⟩

theorem run_of_stopped {s : State} (h : s.emergencyStop = true) (calls : List Call) :
    s.run verifyProof calls = s := by
  induction calls with
  | nil => rfl
  | cons c calls ih =>
      rw [State.run, List.foldl_cons, apply_of_stopped h]
      exact ih

end

/-! ## what a proof is bound to -/

/-- The next block number with the same lowest 32 bits. -/
theorem exists_congruent (b : Word) : ∃ b' : Word, b' ≠ b ∧ b'.toNat % 2 ^ 32 = b.toNat % 2 ^ 32 := by
  have hlt := b.isLt
  have hnext : (b + BitVec.ofNat 256 (2 ^ 32)).toNat = (b.toNat + 2 ^ 32) % 2 ^ 256 := by
    rw [BitVec.toNat_add, BitVec.toNat_ofNat]
    rfl
  refine ⟨b + BitVec.ofNat 256 (2 ^ 32), ?_, ?_⟩
  · intro h
    rw [h] at hnext
    omega
  · rw [hnext]
    omega

/-- **The public inputs bind the root and the block number modulo `2 ^ 32`**: two pairs
are told apart unless they have one root and block numbers that differ only above the
lowest 32 bits.  So every accepted proof registers its root under a second block number. -/
theorem publicInputs_bind_iff (verifyProof : Bytes → List Word → Option Bool) (proof : Bytes)
    (b b' : Word) (r r' : FixedBytes 32) :
    ((buildPublicInputs b r = buildPublicInputs b' r' → (b, r) = (b', r')) ↔
      ¬(r = r' ∧ b ≠ b' ∧ b.toNat % 2 ^ 32 = b'.toNat % 2 ^ 32)) ∧
    ((⟨b, r, proof⟩ : Call).verified verifyProof = true →
      ∃ d, d ≠ b ∧ ∃ s, s = State.deployed.run verifyProof [⟨b, r, proof⟩, ⟨d, r, proof⟩] ∧
        s.events = [(d, r), (b, r)] ∧ s.getMerkleRoot b = .ok r ∧ s.getMerkleRoot d = .ok r) := by
  constructor
  · rw [buildPublicInputs_eq_iff]
    constructor
    · rintro h ⟨hr, hne, hb⟩
      exact hne (Prod.ext_iff.mp (h ⟨hr, hb⟩)).1
    · rintro h ⟨hr, hb⟩
      by_contra hne
      exact h ⟨hr, fun hbb => hne (Prod.ext hbb hr), hb⟩
  · intro hv
    obtain ⟨d, hne, hb⟩ := exists_congruent b
    have hv' : (⟨d, r, proof⟩ : Call).verified verifyProof = true := by
      have hsame := (buildPublicInputs_eq_iff d b r r).mpr ⟨rfl, hb⟩
      unfold Call.verified at hv ⊢
      rwa [hsame]
    have hfirst : ¬ (⟨b, r, proof⟩ : Call).clashes State.deployed := fun h => h.1 rfl
    have hstep := apply_of_not_clashes (s := State.deployed) rfl hv hfirst
    have hsecond : ¬ (⟨d, r, proof⟩ : Call).clashes
        (State.deployed.apply verifyProof ⟨b, r, proof⟩) := by
      rw [hstep]
      intro h
      have h1 := h.1
      simp only [Function.update_of_ne hne] at h1
      exact h1 rfl
    refine ⟨d, hne, _, rfl, ?_⟩
    rw [State.run, List.foldl_cons, List.foldl_cons, List.foldl_nil,
      apply_of_not_clashes (by rw [hstep]) hv' hsecond, hstep]
    refine ⟨rfl, ?_, ?_⟩
    · simp [State.getMerkleRoot, Function.update_of_ne (Ne.symm hne)]
    · simp [State.getMerkleRoot]

theorem length_sampleRoot (byte : UInt8) : (List.replicate 32 byte).length = 32 :=
  List.length_replicate

/-- A root of equal bytes. -/
def sampleRoot (byte : UInt8) : FixedBytes 32 := ⟨List.replicate 32 byte, length_sampleRoot byte⟩

/-- Blocks `1` and `2 ^ 32 + 1` with one root have the same public inputs. -/
theorem publicInputs_collide :
    ¬ (buildPublicInputs 1 (sampleRoot 7) = buildPublicInputs 4294967297 (sampleRoot 7) →
      ((1 : Word), sampleRoot 7) = (4294967297, sampleRoot 7)) := by
  decide +kernel

end GearBridges.Relayer
