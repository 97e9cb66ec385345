import Astrolune.Codec.Reads
import Astrolune.Consensus.Certificate
import Astrolune.Types.Transaction

namespace Astrolune
open Lib Codec

structure Allocation where
  address : Address
  amount : UInt64
  deriving DecidableEq

structure GenesisValidator where
  id : ValidatorId
  weight : Nat
  deriving DecidableEq

structure Genesis where
  version : UInt16
  chainId : UInt32
  capacity : Resources
  committeeSize : Nat
  rotationCount : Nat
  runtimeVersion : UInt32
  validators : List GenesisValidator
  allocations : List Allocation
  deriving DecidableEq

inductive GenesisError where
  | invalidIdentity
  | unsupportedVersion
  | limitExceeded
  | invalidCapacity
  | invalidCommittee
  | invalidValidators
  | invalidAllocations
  deriving DecidableEq

def genesisVersion : UInt16 := 1
def rotatingGenesisVersion : UInt16 := 2
def maxGenesisValidators : Nat := 4096
def maxGenesisAllocations : Nat := 65536
def maxGenesisBytes : Nat := 74 + maxGenesisValidators * 48 + maxGenesisAllocations * 40

def Resources.positive (r : Resources) : Prop :=
  r.compute ≠ 0 ∧ r.memory ≠ 0 ∧ r.io ≠ 0 ∧ r.bandwidth ≠ 0

instance (r : Resources) : Decidable r.positive := inferInstanceAs (Decidable (_ ∧ _))

namespace Genesis

def weightsFit (validators : List GenesisValidator) : Bool :=
  (validators.foldlM (fun sum v => Consensus.checkedAdd128 sum v.weight) 0).isSome

def validate (g : Genesis) : Except GenesisError Unit := do
  ensure .unsupportedVersion (g.version = genesisVersion ∨ g.version = rotatingGenesisVersion)
  ensure .invalidIdentity (g.chainId ≠ 0 ∧ g.runtimeVersion ≠ 0)
  ensure .unsupportedVersion (g.runtimeVersion ≤ 3)
  ensure .limitExceeded (g.validators.length ≤ maxGenesisValidators ∧
    g.allocations.length ≤ maxGenesisAllocations)
  ensure .invalidCapacity g.capacity.positive
  ensure .invalidCommittee (g.committeeSize ≠ 0 ∧ g.rotationCount ≠ 0 ∧
    g.rotationCount ≤ g.committeeSize ∧ g.committeeSize ≤ g.validators.length)
  ensure .invalidValidators (Consensus.ascending (g.validators.map (·.id)) = true ∧
    (∀ v ∈ g.validators, v.id ≠ Hash256.zero ∧ v.weight ≠ 0) ∧ weightsFit g.validators = true)
  ensure .invalidAllocations (Consensus.ascending (g.allocations.map (·.address)) = true ∧
    ∀ a ∈ g.allocations, a.address ≠ Hash256.zero)

def validatorBytes (v : GenesisValidator) : Bytes := v.id.1 ++ leBytes 16 v.weight

def allocationBytes (a : Allocation) : Bytes := a.address.1 ++ u64Bytes a.amount

def toBytes (g : Genesis) : Bytes :=
  u16Bytes g.version ++ (u32Bytes g.chainId ++ (g.capacity.bytes ++ (leBytes 8 g.committeeSize ++
    (leBytes 8 g.rotationCount ++ (u32Bytes g.runtimeVersion ++ (leBytes 8 g.validators.length ++
      (g.validators.flatMap validatorBytes ++ (leBytes 8 g.allocations.length ++
        g.allocations.flatMap allocationBytes))))))))

def commitment (H : Hasher) (g : Genesis) : Except GenesisError Hash256 := do
  g.validate
  return domainHash H (ascii "astrolune.genesis.v1") g.toBytes

end Genesis

end Astrolune
