import Astrolune.Consensus.Evidence
import Astrolune.Consensus.Governance
import Astrolune.State.Proof

namespace Astrolune.Consensus
open Lib Codec Crypto

structure PotbPolicy where
  epochBlocks : UInt64
  initialWeight : Nat
  ageIncrement : Nat
  maximumWeight : Nat
  deriving DecidableEq

namespace PotbPolicy

def validate (p : PotbPolicy) : Except ConsensusError Unit :=
  ensure .invalidTransition (p.epochBlocks ≠ 0 ∧ p.initialWeight ≠ 0 ∧
    p.initialWeight ≤ p.maximumWeight)

def growth (p : PotbPolicy) (epochs : Nat) : Nat :=
  let room := p.maximumWeight - p.initialWeight
  if p.ageIncrement = 0 then 0
  else if room / p.ageIncrement < epochs then room
  else epochs * p.ageIncrement

def score (p : PotbPolicy) (eligibleBlocks : UInt64) (disqualified : Bool) :
    Except ConsensusError Nat := do
  p.validate
  if disqualified then return 0
  else return p.initialWeight + p.growth (eligibleBlocks.toNat / p.epochBlocks.toNat)

def validateForRoster (p : PotbPolicy) : Except ConsensusError Unit := do
  p.validate
  ensure .invalidTransition (p.maximumWeight ≤ (2 ^ 128 - 1) / maxRotationValidators)

def bytes (p : PotbPolicy) : Bytes :=
  u64Bytes p.epochBlocks ++ (leBytes 16 p.initialWeight ++ (leBytes 16 p.ageIncrement ++
    leBytes 16 p.maximumWeight))

end PotbPolicy

structure PotbConfiguration where
  genesis : Genesis
  policy : PotbPolicy
  governance : Option GovernancePolicy
  deriving DecidableEq

structure PotbRecord where
  publicKey : Fixed 32
  admittedAt : UInt64
  eligibleBlocks : UInt64
  disqualification : Option Hash256
  deriving DecidableEq

structure PotbState where
  committee : CommitteeState
  policy : PotbPolicy
  history : CommitteeHistory
  records : OrderedMap ValidatorId PotbRecord
  lastBatch : Hash256
  governance : Option GovernanceState
  deriving DecidableEq

structure PotbBatch where
  contributions : VrfBatch
  evidence : List HistoricalEvidence
  admissions : List AdmissionCertificate
  governance : Option GovernanceCertificate
  deriving DecidableEq

def writeField (field : Bytes) : Except DecodeError Bytes := do
  ensure .limitExceeded (field.length < 2 ^ 32)
  return leBytes 4 field.length ++ field

namespace PotbConfiguration

def genesisParameters (config : PotbConfiguration) : NetworkParameters where
  capacity := config.genesis.capacity
  prices := { Resources.zero with compute := 1 }

def new (genesis : Genesis) (policy : PotbPolicy) : Except ConsensusError PotbConfiguration := do
  failAs .invalidCommittee genesis.validate
  policy.validateForRoster
  ensure .invalidCommittee (genesis.version = rotatingGenesisVersion ∧
    genesis.validators.length ≤ maxRotationValidators ∧
    ∀ v ∈ genesis.validators, v.weight = policy.initialWeight)
  return { genesis, policy, governance := none }

def withGovernance (config : PotbConfiguration) (policy : GovernancePolicy) :
    Except ConsensusError PotbConfiguration := do
  policy.permits config.genesisParameters
  return { config with governance := some policy }

def toBytes (config : PotbConfiguration) : Bytes :=
  ascii (if config.governance.isSome then "ALPTCF02" else "ALPTCF01") ++
    (leBytes 4 config.genesis.toBytes.length ++ (config.genesis.toBytes ++ (config.policy.bytes ++
      (config.governance.map GovernancePolicy.toBytes).getD [])))

def commitment (H : Hasher) (config : PotbConfiguration) : Hash256 :=
  domainHash H (ascii (if config.governance.isSome then "astrolune.potb.configuration.v2"
    else "astrolune.potb.configuration.v1")) config.toBytes

end PotbConfiguration

namespace PotbBatch

variable (c : Suite)

def validateOrder (b : PotbBatch) : Except DecodeError Unit := do
  ensure .limitExceeded (b.evidence.length ≤ maxRotationValidators ∧
    b.admissions.length ≤ maxRotationValidators)
  ensure .nonCanonical (ascending (b.evidence.map (·.evidence.voter)) = true ∧
    ascending (b.admissions.map (·.request.candidate c)) = true)

def new (contributions : VrfBatch) (evidence : List HistoricalEvidence)
    (admissions : List AdmissionCertificate) : Except DecodeError PotbBatch := do
  ensure .limitExceeded (evidence.length ≤ maxRotationValidators ∧
    admissions.length ≤ maxRotationValidators)
  let result : PotbBatch :=
    { contributions, evidence := evidence.insertionSort (·.evidence.voter ≤ ·.evidence.voter),
      admissions := admissions.insertionSort (·.request.candidate c ≤ ·.request.candidate c),
      governance := none }
  result.validateOrder c
  return result

def fields {α : Type} (encode : α → Except DecodeError Bytes) (items : List α) :
    Except DecodeError Bytes := do
  let encoded ← items.mapM fun item => do writeField (← encode item)
  return encoded.flatten

def governanceField : Option GovernanceCertificate → Except DecodeError Bytes
  | none => .ok []
  | some certificate => do writeField (← certificate.toBytes c.blake2s)

def withGovernance (b : PotbBatch) (certificate : GovernanceCertificate) :
    Except DecodeError PotbBatch := do
  let _ ← certificate.toBytes c.blake2s
  return { b with governance := some certificate }

def toBytes (b : PotbBatch) : Except DecodeError Bytes := do
  b.validateOrder c
  let contributions ← writeField (← b.contributions.toBytes c)
  let evidence ← fields (·.toBytes c) b.evidence
  let admissions ← fields (·.toBytes c) b.admissions
  let governance ← governanceField c b.governance
  return ascii (if b.governance.isSome then "ALPTBT02" else "ALPTBT01") ++ (contributions ++
    ([UInt8.ofNat b.evidence.length] ++ (evidence ++ ([UInt8.ofNat b.admissions.length] ++
      (admissions ++ governance)))))

def commitment (b : PotbBatch) : Except DecodeError Hash256 := do
  return domainHash c.blake2s (ascii "astrolune.potb.batch.v1") (← b.toBytes c)

end PotbBatch

/-- `members` as the map of powers lists them, in ascending order. -/
def AuthenticatedCommittee.memberIds (a : AuthenticatedCommittee) : List ValidatorId :=
  (a.powers.map (·.1)).insertionSort (· ≤ ·)

def weightedRoster (policy : PotbPolicy) (records : OrderedMap ValidatorId PotbRecord) :
    Except ConsensusError (List VrfValidator) :=
  ((records.entries.map (·.2)).filter (·.disqualification.isNone)).mapM fun r => do
    return { publicKey := r.publicKey, weight := ← policy.score r.eligibleBlocks false }

namespace PotbState

section

variable (c : Suite)

/-- One record of `validate`. -/
def checkRecord (height : UInt64) (entry : ValidatorId × PotbRecord) :
    Except ConsensusError Unit := do
  ensure .invalidProof (c.strongKey entry.2.publicKey = true)
  ensure .invalidTransition (c.identity entry.2.publicKey = entry.1 ∧
    entry.2.admittedAt < height ∧
    entry.2.eligibleBlocks.toNat ≤ height.toNat - 1 - entry.2.admittedAt.toNat ∧
    entry.2.disqualification ≠ some Hash256.zero ∧
    ¬(height = 1 ∧ entry.2.disqualification.isSome))

def checkGovernance (s : PotbState) : Except ConsensusError Unit :=
  match s.governance with
  | none => .ok ()
  | some governance => do
    governance.validate s.committee.height
    ensure .invalidTransition (governance.active.capacity = s.committee.capacity)

def validate (s : PotbState) : Except ConsensusError Unit := do
  s.policy.validateForRoster
  s.checkGovernance
  ensure .invalidTransition (s.records.entries ≠ [] ∧
    s.records.entries.length ≤ maxRotationValidators ∧
    s.history.entries + 1 = s.committee.height.toNat ∧
    s.history.chainId = s.committee.chainId ∧ s.history.genesis = s.committee.genesis ∧
    (s.lastBatch = Hash256.zero ↔ s.committee.height = 1))
  s.records.entries.forM (checkRecord c s.committee.height)
  let roster ← weightedRoster s.policy s.records
  ensure .invalidCommittee (roster = s.committee.roster)

def initialRecord (v : VrfValidator) : PotbRecord :=
  { publicKey := v.publicKey, admittedAt := 0, eligibleBlocks := 0, disqualification := none }

def initialGovernance (config : PotbConfiguration) :
    Except ConsensusError (Option GovernanceState) :=
  match config.governance with
  | none => .ok none
  | some policy => do return some (← GovernanceState.new policy config.genesisParameters)

def fromConfiguration (config : PotbConfiguration) (keys : List (Fixed 32)) :
    Except ConsensusError PotbState := do
  let base ← CommitteeState.fromGenesis c config.genesis keys
  let committee := base.bindPotbNamespace c (config.commitment c.blake2s)
  let records := committee.roster.foldl (fun m v => m.insert (v.id c) (initialRecord v)) .empty
  let history ← CommitteeHistory.new committee.chainId committee.genesis
  let governance ← initialGovernance config
  let result : PotbState :=
    { committee, policy := config.policy, history, records, lastBatch := Hash256.zero, governance }
  result.validate c
  return result

def countBlock (records : OrderedMap ValidatorId PotbRecord) (id : ValidatorId) :
    Except ConsensusError (OrderedMap ValidatorId PotbRecord) := do
  let record ← okOr .unknownVoter (records.get id)
  let blocks ← okOr .invalidTransition (checkedAdd64 record.eligibleBlocks.toNat 1)
  return records.insert id { record with eligibleBlocks := UInt64.ofNat blocks }

def disqualify (history : CommitteeHistory) (records : OrderedMap ValidatorId PotbRecord)
    (bundle : HistoricalEvidence) : Except ConsensusError (OrderedMap ValidatorId PotbRecord) := do
  bundle.verify c history
  let record ← okOr .unknownVoter (records.get bundle.evidence.voter)
  ensure .invalidTransition (record.disqualification = none ∧
    record.admittedAt < bundle.evidence.height)
  return records.insert bundle.evidence.voter
    { record with disqualification := some (bundle.evidence.offenceId c.blake2s) }

def admittedRecord (committee : CommitteeState) (request : AdmissionRequest) : PotbRecord where
  publicKey := request.intent.publicKey
  admittedAt := committee.height
  eligibleBlocks := 0
  disqualification := none

def admitCandidate (committee : CommitteeState) (parent : Hash256)
    (records : OrderedMap ValidatorId PotbRecord) (certificate : AdmissionCertificate) :
    Except ConsensusError (OrderedMap ValidatorId PotbRecord) := do
  certificate.verify c committee parent
  ensure .invalidTransition (records.get (certificate.request.candidate c) = none)
  return records.insert (certificate.request.candidate c)
    (admittedRecord committee certificate.request)

def stageGovernance (s : PotbState) (parent : Hash256) (batch : PotbBatch) :
    Except ConsensusError (Option GovernanceState) :=
  match s.governance with
  | some current => do return some (← current.stage c s.committee parent batch.governance)
  | none => do
    ensure .invalidTransition (batch.governance = none)
    return none

def applyCapacity (committee : CommitteeState) :
    Option GovernanceState → Except ConsensusError CommitteeState
  | none => .ok committee
  | some parameters => committee.withPotbCapacity c parameters.active.capacity

def stageRecords (s : PotbState) (parent : Hash256) (batch : PotbBatch) :
    Except ConsensusError (OrderedMap ValidatorId PotbRecord) := do
  let context ← s.committee.context c
  let counted ← context.memberIds.foldlM countBlock s.records
  let judged ← batch.evidence.foldlM (disqualify c s.history) counted
  batch.admissions.foldlM (admitCandidate c s.committee parent) judged

def stage (s : PotbState) (parent : Hash256) (batch : PotbBatch) :
    Except ConsensusError PotbState := do
  ensure .invalidTransition (parent ≠ Hash256.zero)
  let lastBatch ← failAs .invalidProof (batch.commitment c)
  ensure .invalidTransition
    (s.records.entries.length + batch.admissions.length ≤ maxRotationValidators)
  let records ← s.stageRecords c parent batch
  let roster ← weightedRoster s.policy records
  let rotated ← s.committee.transitionPotb c batch.contributions roster
  let governance ← s.stageGovernance c parent batch
  let committee ← applyCapacity c rotated governance
  let context ← s.committee.context c
  let history ← s.history.tryAppend c.blake2s context
  let result : PotbState :=
    { committee, policy := s.policy, history, records, lastBatch, governance }
  result.validate c
  return result

def recordBytes (r : PotbRecord) : Bytes :=
  r.publicKey.1 ++ (u64Bytes r.admittedAt ++ (u64Bytes r.eligibleBlocks ++
    match r.disqualification with
    | none => [0]
    | some offence => [1] ++ offence.1))

def governanceField : Option GovernanceState → Except DecodeError Bytes
  | none => .ok []
  | some governance => writeField governance.toBytes

def toBytes (s : PotbState) : Except DecodeError Bytes := do
  failAs .nonCanonical (s.validate c)
  let committee ← writeField (← s.committee.toBytes c)
  let history ← writeField s.history.toBytes
  let governance ← governanceField s.governance
  return ascii (if s.governance.isSome then "ALPTST02" else "ALPTST01") ++ (s.policy.bytes ++
    (s.lastBatch.1 ++ (committee ++ (history ++ ([UInt8.ofNat s.records.entries.length] ++
      (s.records.entries.flatMap (fun e => recordBytes e.2) ++ governance))))))

end

def legacyMaxBytes : Nat :=
  105 + (152 + 80 * maxRotationValidators) + (52 + 64 * 32) + 81 * maxRotationValidators

def maxBytes : Nat := legacyMaxBytes + 4 + 249

end PotbState

def potbStateKey : StateKey := ascii "astrolune.potb.state.v1"

structure PotbHandoff where
  header : BlockHeader
  certificate : FinalityCertificate
  batch : PotbBatch
  nextState : State.StateValueProof

def PotbHandoff.validateShape (h : PotbHandoff) : Except DecodeError Unit := do
  ensure .limitExceeded (h.certificate.signatures.length ≤ maxRotationValidators)
  h.certificate.validateShape
  match h.nextState with
  | .present witness =>
    ensure .nonCanonical (witness.key = potbStateKey ∧
      witness.value.length ≤ PotbState.maxBytes ∧ witness.proof.siblings.length ≤ 20)
  | .absent _ => .error .nonCanonical

structure PotbVerifier where
  current : PotbState
  parent : Hash256
  deriving DecidableEq

namespace PotbVerifier

variable (c : Suite)

def verifyHeader (v : PotbVerifier) (header : BlockHeader) (certificate : FinalityCertificate) :
    Except ConsensusError Unit := do
  let committee := v.current.committee
  ensure .invalidTransition (header.height = committee.height ∧ header.parent = v.parent ∧
    header.capacity = committee.capacity)
  let context ← committee.context c
  context.verifyCertificate c.blake2s c.toVerifier certificate header

/-- `apply(&mut self)`: the result, and the verifier it leaves behind. The two assignments are the
last thing a call does. -/
def apply (v : PotbVerifier) (handoff : PotbHandoff) : Except ConsensusError Unit × PotbVerifier :=
  match (do
    failAs .invalidProof handoff.validateShape
    v.verifyHeader c handoff.header handoff.certificate
    let next ← v.current.stage c v.parent handoff.batch
    let expected ← failAs .invalidProof (next.toBytes c)
    let actual ← failAs .invalidProof
      (handoff.nextState.verify c.blake2s handoff.header.stateRoot potbStateKey)
    ensure .invalidTransition (actual = some expected)
    return next : Except ConsensusError PotbState) with
  | .error e => (.error e, v)
  | .ok next => (.ok (), { current := next, parent := handoff.header.computeHash c.blake2s })

end PotbVerifier

end Astrolune.Consensus
