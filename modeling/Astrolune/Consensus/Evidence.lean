import Astrolune.Consensus.History
import Astrolune.Consensus.Sampler

namespace Astrolune.Consensus
open Lib Codec Crypto

def Vote.encode (v : Vote) : Bytes := v.signingBytes ++ v.signature.1

def earlierBlock : Option Hash256 → Option Hash256 → Bool
  | none, some _ => true
  | some a, some b => decide (a.1 < b.1)
  | _, none => false

def AuthenticatedCommittee.verifyVote (c : Suite) (a : AuthenticatedCommittee) (vote : Vote) :
    Except ConsensusError Nat := do
  let (power, request) ← a.voteCredentials c.blake2s vote
  ensure .invalidProof (request.verify c.toVerifier = true)
  return power

structure DoubleVoteEvidence where
  first : Vote
  second : Vote
  deriving DecidableEq

namespace DoubleVoteEvidence

def sameSlot (e : DoubleVoteEvidence) : Prop :=
  e.first.chainId = e.second.chainId ∧ e.first.height = e.second.height ∧
    e.first.committeeRoot = e.second.committeeRoot ∧ e.first.round = e.second.round ∧
    e.first.phase = e.second.phase ∧ e.first.voter = e.second.voter ∧
    earlierBlock e.first.block e.second.block = true

instance (e : DoubleVoteEvidence) : Decidable e.sameSlot := inferInstanceAs (Decidable (_ ∧ _))

def voter (e : DoubleVoteEvidence) : ValidatorId := e.first.voter

def height (e : DoubleVoteEvidence) : UInt64 := e.first.height

def encode (e : DoubleVoteEvidence) : Bytes :=
  ascii "ALDV" ++ (u32Bytes 1 ++ (e.first.encode ++ e.second.encode))

def verify (c : Suite) (e : DoubleVoteEvidence) (a : AuthenticatedCommittee) :
    Except ConsensusError Unit := do
  ensure .invalidTransition e.sameSlot
  let _ ← a.verifyVote c e.first
  let _ ← a.verifyVote c e.second
  return ()

def offenceId (H : Hasher) (e : DoubleVoteEvidence) : Hash256 :=
  domainHash H (ascii "astrolune.potb.offence-slot.v1")
    ({ e.first with block := none } : Vote).signingBytes

end DoubleVoteEvidence

structure HistoricalEvidence where
  members : List VrfValidator
  history : CommitteeHistoryProof
  evidence : DoubleVoteEvidence
  deriving DecidableEq

namespace HistoricalEvidence

def maxMembers : Nat := 32

section

variable (c : Suite)

def context (e : HistoricalEvidence) : Except ConsensusError AuthenticatedCommittee := do
  ensure .invalidCommittee (e.members ≠ [] ∧ e.members.length ≤ maxMembers ∧
    e.history.height = e.evidence.height.toNat)
  AuthenticatedCommittee.new c.blake2s c.toVerifier e.evidence.first.chainId
    { height := e.evidence.height, members := e.members.map fun m => ⟨m.id c, m.weight⟩ }
    (e.members.map (·.publicKey))

def withKey (keys : List (Fixed 32)) (member : CommitteeMember) :
    Except ConsensusError VrfValidator := do
  let publicKey ← okOr .unknownVoter (keys.find? (c.identity · = member.id))
  return { publicKey, weight := member.power }

def new (trusted : CommitteeHistory) (committee : Committee) (keys : List (Fixed 32))
    (history : CommitteeHistoryProof) (evidence : DoubleVoteEvidence) :
    Except ConsensusError HistoricalEvidence := do
  ensure .invalidCommittee (committee.members ≠ [] ∧ committee.members.length ≤ maxMembers ∧
    committee.height.toNat = history.height ∧ keys.length = committee.members.length)
  let context ← AuthenticatedCommittee.new c.blake2s c.toVerifier trusted.chainId committee keys
  history.verify c.blake2s trusted context
  evidence.verify c context
  let members ← committee.members.mapM (withKey c keys)
  return { members, history, evidence }

def verify (e : HistoricalEvidence) (trusted : CommitteeHistory) : Except ConsensusError Unit := do
  let context ← e.context c
  e.history.verify c.blake2s trusted context
  e.evidence.verify c context

def memberBytes (m : VrfValidator) : Bytes := m.publicKey.1 ++ leBytes 16 m.weight

def toBytes (e : HistoricalEvidence) : Except DecodeError Bytes := do
  let _ ← failAs .nonCanonical (e.context c)
  let proof ← e.history.toBytes
  return ascii "ALHDEV01" ++ ([UInt8.ofNat e.members.length] ++ (e.members.flatMap memberBytes ++
    (leBytes 4 proof.length ++ (proof ++ e.evidence.encode))))

end

end HistoricalEvidence

end Astrolune.Consensus
