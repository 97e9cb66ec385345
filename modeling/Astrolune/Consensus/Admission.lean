import Astrolune.Consensus.Rotation
import Astrolune.Types.Digest

namespace Astrolune.Consensus
open Lib Codec Crypto

structure Approval where
  request : Hash256
  voter : ValidatorId
  signature : Fixed 64
  deriving DecidableEq

def CommitteeState.rosterKeys (c : Suite) (s : CommitteeState) : List (ValidatorId × Fixed 32) :=
  s.roster.map fun v => (v.id c, v.publicKey)

/-- What is signed by approvals of one request: its identity, and the digest of each voter. -/
structure Approvable where
  id : Hash256
  approvalHash : ValidatorId → Hash256

namespace Approval

def credentials (request : Approvable) (context : AuthenticatedCommittee)
    (keys : List (ValidatorId × Fixed 32)) (a : Approval) :
    Except ConsensusError (Nat × DigestRequest) := do
  ensure .invalidTransition (a.request = request.id)
  let power ← okOr .unknownVoter (context.votingPower a.voter)
  let publicKey ← okOr .unknownVoter (keys.lookup a.voter)
  return (power, ⟨publicKey, request.approvalHash a.voter, a.signature⟩)

/-- The end of `verify` that both certificates share. -/
def tally (c : Suite) (current : CommitteeState) (request : Approvable)
    (approvals : List Approval) : Except ConsensusError Unit := do
  let context ← current.context c
  settle c.toVerifier context.quorum
    (hoist (credentials request context (current.rosterKeys c)) approvals)

end Approval

structure AdmissionIntent where
  chainId : UInt32
  genesis : Hash256
  height : UInt64
  parent : Hash256
  committeeRoot : Hash256
  publicKey : Fixed 32
  deriving DecidableEq

namespace AdmissionIntent

def validate (c : Suite) (i : AdmissionIntent) : Except DecodeError Unit := do
  ensure .nonCanonical (i.chainId ≠ 0 ∧ i.genesis ≠ Hash256.zero ∧ i.parent ≠ Hash256.zero ∧
    i.committeeRoot ≠ Hash256.zero ∧ i.height ≠ 0 ∧ i.height.toNat ≠ 2 ^ 64 - 1)
  ensure .nonCanonical (c.strongKey i.publicKey = true)

def toBytes (i : AdmissionIntent) : Bytes :=
  u32Bytes i.chainId ++ (i.genesis.1 ++ (u64Bytes i.height ++ (i.parent.1 ++
    (i.committeeRoot.1 ++ i.publicKey.1))))

def consentHash (H : Hasher) (i : AdmissionIntent) : Hash256 :=
  domainHash H (ascii "astrolune.admission.consent.v1") i.toBytes

def verifyConsent (c : Suite) (i : AdmissionIntent) (signature : Fixed 64) : Bool :=
  (i.validate c).toBool && c.ed25519Verify i.publicKey (i.consentHash c.blake2s).1 signature

def requestId (H : Hasher) (i : AdmissionIntent) (consent : Fixed 64) : Hash256 :=
  domainHash H (ascii "astrolune.admission.request.v1") (i.toBytes ++ consent.1)

def approvalHash (H : Hasher) (i : AdmissionIntent) (consent : Fixed 64)
    (voter : ValidatorId) : Hash256 :=
  domainHash H (ascii "astrolune.admission.approval.v1")
    ((i.requestId H consent).1 ++ voter.1)

end AdmissionIntent

structure AdmissionRequest where
  intent : AdmissionIntent
  consent : Fixed 64
  deriving DecidableEq

namespace AdmissionRequest

variable (c : Suite)

def id (r : AdmissionRequest) : Hash256 := r.intent.requestId c.blake2s r.consent

def candidate (r : AdmissionRequest) : ValidatorId := c.identity r.intent.publicKey

def approvable (r : AdmissionRequest) : Approvable where
  id := r.id c
  approvalHash := r.intent.approvalHash c.blake2s r.consent

def anchored (r : AdmissionRequest) (current : CommitteeState) (parent : Hash256) : Prop :=
  r.intent.chainId = current.chainId ∧ r.intent.genesis = current.genesis ∧
    r.intent.height = current.height ∧ r.intent.parent = parent

instance (r : AdmissionRequest) (current : CommitteeState) (parent : Hash256) :
    Decidable (r.anchored current parent) := inferInstanceAs (Decidable (_ ∧ _))

def verify (r : AdmissionRequest) (current : CommitteeState) (parent : Hash256) :
    Except ConsensusError Unit := do
  ensure .invalidTransition (r.anchored current parent)
  let context ← current.context c
  ensure .invalidTransition (r.intent.committeeRoot = context.root ∧
    current.roster.length < maxRotationValidators ∧
    ∀ v ∈ current.roster, v.publicKey ≠ r.intent.publicKey)
  ensure .invalidProof (r.intent.verifyConsent c r.consent = true)

def toBytes (r : AdmissionRequest) : Except DecodeError Bytes := do
  r.intent.validate c
  return ascii "ALADRQ01" ++ (r.intent.toBytes ++ r.consent.1)

end AdmissionRequest

structure AdmissionCertificate where
  request : AdmissionRequest
  approvals : List Approval
  deriving DecidableEq

namespace AdmissionCertificate

variable (c : Suite)

def validateShape (a : AdmissionCertificate) : Except DecodeError Unit := do
  a.request.intent.validate c
  ensure .limitExceeded (a.approvals ≠ [] ∧ a.approvals.length ≤ maxRotationValidators)
  ensure .nonCanonical (ascending (a.approvals.map (·.voter)) = true ∧
    ∀ p ∈ a.approvals, p.voter ≠ Hash256.zero ∧ p.request = a.request.id c)

def verify (a : AdmissionCertificate) (current : CommitteeState) (parent : Hash256) :
    Except ConsensusError Unit := do
  failAs .invalidCertificate (a.validateShape c)
  a.request.verify c current parent
  Approval.tally c current (a.request.approvable c) a.approvals

def assemble (request : AdmissionRequest) (approvals : List Approval) (current : CommitteeState)
    (parent : Hash256) : Except ConsensusError AdmissionCertificate := do
  ensure .invalidCertificate (approvals.length ≤ maxRotationValidators)
  let result : AdmissionCertificate := ⟨request, approvals.insertionSort (·.voter ≤ ·.voter)⟩
  result.verify c current parent
  return result

def toBytes (a : AdmissionCertificate) : Except DecodeError Bytes := do
  a.validateShape c
  let request ← a.request.toBytes c
  return ascii "ALADCT01" ++ (request ++ ([UInt8.ofNat a.approvals.length] ++
    a.approvals.flatMap fun p => p.voter.1 ++ p.signature.1))

end AdmissionCertificate

end Astrolune.Consensus
