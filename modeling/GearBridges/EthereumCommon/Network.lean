import Mathlib.Init

/-!
# EthereumCommon.Network

Constants of the beacon chain, slot arithmetic and the fork schedule of the
supported networks.  Slots are `u64` in the source; epochs and periods are quotients
of slots, so nothing computed here wraps and they are natural numbers.
-/

namespace GearBridges.EthereumCommon

/-- Number of a slot. -/
abbrev Slot := Nat

def slotsPerEpoch : Nat := 32
def epochsPerSyncCommittee : Nat := 256
def syncCommitteeSize : Nat := 512

/-- `calculate_epoch`. -/
def calculateEpoch (slot : Slot) : Nat := slot / slotsPerEpoch

/-- `calculate_period`. -/
def calculatePeriod (slot : Slot) : Nat := calculateEpoch slot / epochsPerSyncCommittee

/-- `calculate_slot`: the first slot of a period. -/
def calculateSlot (period : Nat) : Slot := period * slotsPerEpoch * epochsPerSyncCommittee

theorem calculatePeriod_mono {a b : Slot} (h : a ≤ b) : calculatePeriod a ≤ calculatePeriod b := by
  unfold calculatePeriod calculateEpoch
  exact Nat.div_le_div_right (Nat.div_le_div_right h)

inductive Network where
  | mainnet
  | sepolia
  | holesky
  | hoodi
deriving DecidableEq, Repr

namespace Network

/-- Epoch of the Electra fork. -/
def epochElectra : Network → Nat
  | holesky => 115968
  | sepolia => 222464
  | hoodi => 2048
  | mainnet => 364032

/-- Fork version in force at a slot. -/
def forkVersion (network : Network) (slot : Slot) : BitVec 32 :=
  let electra := network.epochElectra ≤ calculateEpoch slot
  match network with
  | mainnet => if electra then 0x05000000#32 else 0x04000000#32
  | sepolia => if electra then 0x90000074#32 else 0x90000073#32
  | holesky => if electra then 0x06017000#32 else 0x05017000#32
  | hoodi => if electra then 0x60000910#32 else 0x50000910#32

def genesisValidatorsRoot : Network → BitVec 256
  | mainnet => 0x4b363db94e286120d76eb905340fdd4e54bfe9f06bf33ff6cf5ad27f511bfe95#256
  | sepolia => 0xd8ea171f3c94aea21ebc42a1ed61052acf3f9209c00e4efbaaddac09ed9b8078#256
  | holesky => 0x9143aa7c615a7f7115e2b6aac319c03529df8242ae705fba9df39b79c59fa8b1#256
  | hoodi => 0x212f13fc4df078b6cb7db228f1c8307566dcecf900867401a92023d7ba99cb5f#256

end Network

end GearBridges.EthereumCommon
