import Astrolune.Consensus.Certificate

namespace Astrolune.Consensus
open Lib Codec Keystore

inductive VotingStep where
  | awaitingProposal
  | prevoted
  | precommitted
  | finalized
  deriving DecidableEq

inductive LocalBftError where
  | consensus (error : ConsensusError)
  | signing (error : KeystoreError)
  deriving DecidableEq

/-- Everything a validator links: hashing, signing and verification. -/
structure Provider extends Keystore.Crypto, Crypto.Verifier

structure Disk where
  journal : File
  anchor : Option File

structure LocalBft where
  committee : AuthenticatedCommittee
  signer : DurableSigner
  handle : KeyHandle
  voter : ValidatorId
  round : UInt32
  step : VotingStep
  locked : Option SigningLock
  finalized : Option Hash256

def consensus {α : Type} : Except ConsensusError α → Except LocalBftError α :=
  Except.mapError .consensus

def signing {α : Type} : Except KeystoreError α → Except LocalBftError α :=
  Except.mapError .signing

def VotePhase.step : VotePhase → VotingStep
  | .prevote => .prevoted
  | .precommit => .precommitted

namespace LocalBft

def stepOf (phase : UInt8) : Option VotingStep :=
  if phase = proposalPhase then some .awaitingProposal
  else if phase = prevotePhase then some .prevoted
  else if phase = precommitPhase then some .precommitted
  else none

def restored (committee : AuthenticatedCommittee) (signer : DurableSigner) :
    Except LocalBftError (UInt32 × VotingStep × Option SigningLock) :=
  match signer.journal.last with
  | none => .ok (0, .awaitingProposal, none)
  | some (position, _) =>
    if committee.height < position.height then .error (.signing .stalePosition)
    else if position.height = committee.height then do
      let safety ← okOr (.signing .invalidSafety) signer.journal.safety
      ensure (.signing .contextMismatch) (safety.committeeRoot = committee.root)
      let step ← okOr (.signing .invalidPosition) (stepOf position.phase)
      return (position.round, step, safety.locked)
    else .ok (0, .awaitingProposal, none)

def new (committee : AuthenticatedCommittee) (signer : DurableSigner) (genesis : Hash256) :
    Except LocalBftError LocalBft := do
  ensure (.signing .invalidSafety) (signer.journal.isProtected = true)
  ensure (.signing .contextMismatch) (signer.context.chainId = committee.chainId ∧
    signer.context.genesis = genesis)
  let voter ← signing (signer.validatorId signer.handle)
  ensure (.consensus .unknownVoter) (committee.votingPower voter).isSome
  let (round, step, locked) ← restored committee signer
  return ⟨committee, signer, signer.handle, voter, round, step, locked, none⟩

variable (provider : Provider) (b : LocalBft)

def validHeader (header : BlockHeader) (validate : BlockHeader → Bool) : Bool :=
  decide (header.height = b.committee.height ∧ header.committeeRoot = b.committee.root) &&
    validate header

/-- The unsigned vote `issue` builds. -/
def ballot (phase : VotePhase) (block : Option Hash256) : Vote :=
  ⟨b.committee.chainId, b.committee.root, b.committee.height, b.round, phase, block, b.voter,
    Fixed.fill 64 0⟩

def issue (disk : Disk) (io : SignIo) (phase : VotePhase) (block : Option Hash256)
    (locked : Option SigningLock) : LocalBft × Disk × Except LocalBftError Vote :=
  let vote := b.ballot phase block
  match b.signer.sign provider.toCrypto disk.journal disk.anchor io b.handle
      ⟨vote.height, vote.round, phase.position⟩ (vote.signingHash provider.blake2s)
      (some ⟨vote.committeeRoot, locked⟩) with
  | (signer, journal, anchor, .error e) =>
    ({ b with signer }, ⟨journal, anchor⟩, .error (.signing e))
  | (signer, journal, anchor, .ok signature) =>
    ({ b with signer, locked, step := phase.step }, ⟨journal, anchor⟩,
      .ok { vote with signature })

/-- What a voting call asks `issue` for once its checks have passed. -/
structure Choice where
  phase : VotePhase
  block : Option Hash256
  locked : Option SigningLock

def issueChoice (disk : Disk) (io : SignIo) (choice : Except LocalBftError Choice) :
    LocalBft × Disk × Except LocalBftError Vote :=
  match choice with
  | .error e => (b, disk, .error e)
  | .ok c => b.issue provider disk io c.phase c.block c.locked

def checkValidRound (header : Option BlockHeader) (validRound : Option PrevoteCertificate) :
    Except LocalBftError Unit :=
  match validRound with
  | none => .ok ()
  | some proof => do
    consensus (proof.verifyContext b.committee)
    ensure (.consensus .invalidCertificate) (proof.round < b.round ∧
      header.any (fun h => h.computeHash provider.blake2s = proof.block))

def permitted (block : Option Hash256) (validRound : Option PrevoteCertificate) : Bool :=
  b.locked.all fun locked => decide (block = some locked.block) ||
    validRound.any fun proof => decide (locked.round < proof.round)

def prevoteChoice (header : Option BlockHeader) (validRound : Option PrevoteCertificate)
    (validate : BlockHeader → Bool) : Except LocalBftError Choice := do
  ensure (.consensus .invalidTransition) (b.step = .awaitingProposal ∨ b.step = .prevoted)
  b.checkValidRound provider header validRound
  let block := (header.filter (b.validHeader · validate)).map (·.computeHash provider.blake2s)
  return ⟨.prevote, block.filter fun _ => b.permitted block validRound, b.locked⟩

def precommitChoice (header : BlockHeader) (proof : PrevoteCertificate)
    (validate : BlockHeader → Bool) : Except LocalBftError Choice := do
  ensure (.consensus .invalidTransition) (b.step = .prevoted ∨ b.step = .precommitted)
  consensus (proof.verifyContext b.committee)
  ensure (.consensus .invalidCertificate) (proof.round = b.round ∧
    proof.block = header.computeHash provider.blake2s ∧ b.validHeader header validate = true)
  return ⟨.precommit, some proof.block, some ⟨b.round, proof.block⟩⟩

def timeoutProposalChoice (round : UInt32) : Except LocalBftError Choice := do
  ensure (.consensus .invalidTransition) (round = b.round ∧ b.step = .awaitingProposal)
  return ⟨.prevote, none, b.locked⟩

def timeoutPrevoteChoice (round : UInt32) : Except LocalBftError Choice := do
  ensure (.consensus .invalidTransition) (round = b.round ∧ b.step = .prevoted)
  return ⟨.precommit, none, b.locked⟩

/-- The unsigned proposal, once `propose` has checked it. -/
def proposalChoice (expected : ValidatorId) (header : BlockHeader)
    (validRound : Option PrevoteCertificate) (validate : BlockHeader → Bool) :
    Except LocalBftError Proposal := do
  ensure (.consensus .invalidTransition) (b.step = .awaitingProposal ∧ b.voter = expected ∧
    b.validHeader header validate = true)
  let proposal : Proposal := ⟨b.committee.chainId, b.signer.context.genesis, b.committee.height,
    b.round, b.committee.root, header.computeHash provider.blake2s, b.voter,
    validRound.map (·.round), Fixed.fill 64 0⟩
  consensus (proposal.verifyValidRound b.committee validRound)
  ensure (.consensus .invalidTransition) (b.locked.all fun locked =>
    decide (proposal.block = locked.block) ||
      validRound.any fun proof => decide (locked.round < proof.round))
  return proposal

def propose (disk : Disk) (io : SignIo) (expected : ValidatorId) (header : BlockHeader)
    (validRound : Option PrevoteCertificate) (validate : BlockHeader → Bool) :
    LocalBft × Disk × Except LocalBftError Proposal :=
  match b.proposalChoice provider expected header validRound validate with
  | .error e => (b, disk, .error e)
  | .ok proposal =>
    match b.signer.sign provider.toCrypto disk.journal disk.anchor io b.handle
        ⟨proposal.height, b.round, proposalPhase⟩ (proposal.signingHash provider.blake2s)
        (some ⟨proposal.committeeRoot, b.locked⟩) with
    | (signer, journal, anchor, .error e) =>
      ({ b with signer }, ⟨journal, anchor⟩, .error (.signing e))
    | (signer, journal, anchor, .ok signature) =>
      ({ b with signer }, ⟨journal, anchor⟩, .ok { proposal with signature })

def prevote (disk : Disk) (io : SignIo) (header : Option BlockHeader)
    (validRound : Option PrevoteCertificate) (validate : BlockHeader → Bool) :
    LocalBft × Disk × Except LocalBftError Vote :=
  b.issueChoice provider disk io (b.prevoteChoice provider header validRound validate)

def verifyProposal (expected : ValidatorId) (proposal : Proposal) (header : BlockHeader)
    (validRound : Option PrevoteCertificate) : Except LocalBftError Unit := do
  ensure (.consensus .invalidTransition) (proposal.round = b.round)
  consensus (b.committee.verifyProposal provider.blake2s provider.toVerifier proposal header
    expected b.signer.context.genesis)
  consensus (proposal.verifyValidRound b.committee validRound)

def prevoteProposal (disk : Disk) (io : SignIo) (expected : ValidatorId) (proposal : Proposal)
    (header : BlockHeader) (validRound : Option PrevoteCertificate)
    (validate : BlockHeader → Bool) : LocalBft × Disk × Except LocalBftError Vote :=
  match b.verifyProposal provider expected proposal header validRound with
  | .error e => (b, disk, .error e)
  | .ok () => b.prevote provider disk io (some header) validRound validate

def precommit (disk : Disk) (io : SignIo) (header : BlockHeader) (proof : PrevoteCertificate)
    (validate : BlockHeader → Bool) : LocalBft × Disk × Except LocalBftError Vote :=
  b.issueChoice provider disk io (b.precommitChoice provider header proof validate)

def timeoutProposal (disk : Disk) (io : SignIo) (round : UInt32) :
    LocalBft × Disk × Except LocalBftError Vote :=
  b.issueChoice provider disk io (b.timeoutProposalChoice round)

def timeoutPrevote (disk : Disk) (io : SignIo) (round : UInt32) :
    LocalBft × Disk × Except LocalBftError Vote :=
  b.issueChoice provider disk io (b.timeoutPrevoteChoice round)

def timeoutPrecommit (round : UInt32) : LocalBft × Except LocalBftError Unit :=
  if round ≠ b.round ∨ b.step ≠ .precommitted ∨ b.round.toNat + 1 = 2 ^ 32 then
    (b, .error (.consensus .invalidTransition))
  else ({ b with round := b.round + 1, step := .awaitingProposal }, .ok ())

def finalize (header : BlockHeader) (certificate : FinalityCertificate)
    (validate : BlockHeader → Bool) : LocalBft × Except LocalBftError Unit :=
  match b.committee.verifyCertificate provider.blake2s provider.toVerifier certificate header with
  | .error e => (b, .error (.consensus e))
  | .ok () =>
    if b.validHeader header validate = true ∧ ∀ hash ∈ b.finalized, hash = certificate.block then
      ({ b with finalized := some certificate.block, step := .finalized }, .ok ())
    else (b, .error (.consensus .invalidTransition))

end LocalBft
end Astrolune.Consensus
