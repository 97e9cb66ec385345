import Astrolune.Consensus.Admission
import Astrolune.Types.Block

namespace Astrolune.Consensus
open Lib Codec Crypto

structure GovernanceIntent where
  chainId : UInt32
  genesis : Hash256
  height : UInt64
  parent : Hash256
  committeeRoot : Hash256
  activateAt : UInt64
  capacity : Resources
  prices : Resources
  deriving DecidableEq

namespace GovernanceIntent

def validate (i : GovernanceIntent) : Except DecodeError Unit :=
  ensure .nonCanonical (i.chainId ≠ 0 ∧ i.genesis ≠ Hash256.zero ∧ i.parent ≠ Hash256.zero ∧
    i.committeeRoot ≠ Hash256.zero ∧ i.height ≠ 0 ∧ i.height < i.activateAt ∧ i.capacity.positive)

def toBytes (i : GovernanceIntent) : Bytes :=
  ascii "ALGVRQ01" ++ (u32Bytes i.chainId ++ (i.genesis.1 ++ (u64Bytes i.height ++ (i.parent.1 ++
    (i.committeeRoot.1 ++ (u64Bytes i.activateAt ++ (i.capacity.bytes ++ i.prices.bytes)))))))

def id (H : Hasher) (i : GovernanceIntent) : Hash256 :=
  domainHash H (ascii "astrolune.governance.request.v1") i.toBytes

def approvalHash (H : Hasher) (i : GovernanceIntent) (voter : ValidatorId) :
    Hash256 :=
  domainHash H (ascii "astrolune.governance.approval.v1") ((i.id H).1 ++ voter.1)

def approvable (c : Suite) (i : GovernanceIntent) : Approvable where
  id := i.id c.blake2s
  approvalHash := i.approvalHash c.blake2s

end GovernanceIntent

structure NetworkParameters where
  capacity : Resources
  prices : Resources
  deriving DecidableEq

structure GovernancePolicy where
  epochBlocks : UInt64
  minimumCapacity : Resources
  maximumCapacity : Resources
  maximumPrices : Resources
  deriving DecidableEq

def governanceCapacityFloor : Resources := ⟨500000, 131072, 16384, 65536⟩

namespace GovernancePolicy

def validate (p : GovernancePolicy) : Except ConsensusError Unit :=
  ensure .invalidTransition (p.epochBlocks ≠ 0 ∧ p.minimumCapacity.positive ∧
    governanceCapacityFloor.fitsIn p.minimumCapacity ∧ p.minimumCapacity.fitsIn p.maximumCapacity)

def permits (p : GovernancePolicy) (value : NetworkParameters) : Except ConsensusError Unit := do
  p.validate
  ensure .invalidTransition (p.minimumCapacity.fitsIn value.capacity ∧
    value.capacity.fitsIn p.maximumCapacity ∧ value.prices.fitsIn p.maximumPrices)

/-- The height after the current epoch, if it is a `u64` at every step. -/
def nextEpoch (p : GovernancePolicy) (height : UInt64) : Except ConsensusError UInt64 :=
  okOr .invalidTransition do
    if height = 0 ∨ p.epochBlocks = 0 then none
    else
      let epoch ← checkedAdd64 ((height.toNat - 1) / p.epochBlocks.toNat) 1
      let start ← if epoch * p.epochBlocks.toNat < 2 ^ 64 then some (epoch * p.epochBlocks.toNat)
        else none
      let next ← checkedAdd64 start 1
      return UInt64.ofNat next

def toBytes (p : GovernancePolicy) : Bytes :=
  u64Bytes p.epochBlocks ++ (p.minimumCapacity.bytes ++ (p.maximumCapacity.bytes ++
    p.maximumPrices.bytes))

end GovernancePolicy

structure GovernanceState where
  policy : GovernancePolicy
  active : NetworkParameters
  pending : Option (UInt64 × NetworkParameters)
  deriving DecidableEq

structure GovernanceCertificate where
  request : GovernanceIntent
  approvals : List Approval
  deriving DecidableEq

namespace GovernanceCertificate

def validateShape (H : Hasher) (g : GovernanceCertificate) :
    Except DecodeError Unit := do
  g.request.validate
  ensure .limitExceeded (g.approvals ≠ [] ∧ g.approvals.length ≤ maxRotationValidators)
  ensure .nonCanonical (ascending (g.approvals.map (·.voter)) = true ∧
    ∀ p ∈ g.approvals, p.request = g.request.id H)

def approvalBytes (p : Approval) : Bytes :=
  ascii "ALGVAP01" ++ (p.request.1 ++ (p.voter.1 ++ p.signature.1))

def toBytes (H : Hasher) (g : GovernanceCertificate) : Except DecodeError Bytes := do
  g.validateShape H
  return ascii "ALGVCF01" ++ (g.request.toBytes ++ ([UInt8.ofNat g.approvals.length] ++
    g.approvals.flatMap approvalBytes))

end GovernanceCertificate

namespace GovernanceState

def new (policy : GovernancePolicy) (active : NetworkParameters) :
    Except ConsensusError GovernanceState := do
  policy.permits active
  return { policy, active, pending := none }

def validate (g : GovernanceState) (height : UInt64) : Except ConsensusError Unit := do
  g.policy.permits g.active
  ensure .invalidTransition (height ≠ 0)
  match g.pending with
  | none => return ()
  | some (activateAt, parameters) =>
    g.policy.permits parameters
    ensure .invalidTransition (height < activateAt)
    let next ← g.policy.nextEpoch height
    ensure .invalidTransition (activateAt = next)

section

variable (c : Suite)

def verifyRequest (g : GovernanceState) (current : CommitteeState) (parent : Hash256)
    (request : GovernanceIntent) : Except ConsensusError Unit := do
  g.validate current.height
  failAs .invalidTransition request.validate
  ensure .invalidTransition (g.pending = none ∧ request.chainId = current.chainId ∧
    request.genesis = current.genesis ∧ request.height = current.height ∧ request.parent = parent)
  let context ← current.context c
  ensure .invalidTransition (request.committeeRoot = context.root)
  let next ← g.policy.nextEpoch current.height
  ensure .invalidTransition (request.activateAt = next)
  g.policy.permits { capacity := request.capacity, prices := request.prices }

end

end GovernanceState

def GovernanceCertificate.verify (c : Suite) (g : GovernanceCertificate) (current : CommitteeState)
    (parent : Hash256) (policy : GovernanceState) : Except ConsensusError Unit := do
  failAs .invalidCertificate (g.validateShape c.blake2s)
  policy.verifyRequest c current parent g.request
  Approval.tally c current (g.request.approvable c) g.approvals

def GovernanceCertificate.assemble (c : Suite) (request : GovernanceIntent)
    (approvals : List Approval) (current : CommitteeState) (parent : Hash256)
    (policy : GovernanceState) : Except ConsensusError GovernanceCertificate := do
  let result : GovernanceCertificate := ⟨request, approvals.insertionSort (·.voter ≤ ·.voter)⟩
  result.verify c current parent policy
  return result

namespace GovernanceState

def queue (c : Suite) (g : GovernanceState) (current : CommitteeState) (parent : Hash256) :
    Option GovernanceCertificate → Except ConsensusError GovernanceState
  | none => .ok g
  | some certificate => do
    certificate.verify c current parent g
    return { g with pending := some (certificate.request.activateAt,
      { capacity := certificate.request.capacity, prices := certificate.request.prices }) }

def activate (g : GovernanceState) (height : UInt64) : GovernanceState :=
  match g.pending with
  | none => g
  | some (activateAt, parameters) =>
    if activateAt = height then { g with active := parameters, pending := none } else g

def stage (c : Suite) (g : GovernanceState) (current : CommitteeState) (parent : Hash256)
    (certificate : Option GovernanceCertificate) : Except ConsensusError GovernanceState := do
  g.validate current.height
  let nextHeight ← okOr .invalidTransition (checkedAdd64 current.height.toNat 1)
  let queued ← g.queue c current parent certificate
  let next := queued.activate (UInt64.ofNat nextHeight)
  next.validate (UInt64.ofNat nextHeight)
  return next

def parameterBytes (p : NetworkParameters) : Bytes := p.capacity.bytes ++ p.prices.bytes

def pendingBytes : Option (UInt64 × NetworkParameters) → Bytes
  | none => [0]
  | some (height, parameters) => [1] ++ (u64Bytes height ++ parameterBytes parameters)

def toBytes (g : GovernanceState) : Bytes :=
  ascii "ALGVST01" ++ (g.policy.toBytes ++ (parameterBytes g.active ++ pendingBytes g.pending))

end GovernanceState

end Astrolune.Consensus
