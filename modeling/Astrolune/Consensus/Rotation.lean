import Astrolune.Consensus.Genesis
import Astrolune.Consensus.Sampler

namespace Astrolune.Consensus
open Lib Codec Crypto List

def maxRotationValidators : Nat := 32

structure VrfContribution where
  validator : ValidatorId
  committee : VrfOutput
  producer : VrfOutput
  deriving DecidableEq

structure VrfBatch where
  entries : List VrfContribution
  deriving DecidableEq

structure CommitteeState where
  chainId : UInt32
  genesis : Hash256
  height : UInt64
  randomness : Hash256
  capacity : Resources
  targetSize : Nat
  rotationCount : Nat
  roster : List VrfValidator
  members : List ValidatorId
  producer : ValidatorId
  deriving DecidableEq

namespace VrfBatch

def validateShape (b : VrfBatch) : Except DecodeError Unit := do
  ensure .limitExceeded (b.entries ≠ [] ∧ b.entries.length ≤ maxRotationValidators)
  ensure .nonCanonical (ascending (b.entries.map (·.validator)) = true ∧
    ∀ e ∈ b.entries, e.committee.proof.length = vrfProofBytes ∧
      e.producer.proof.length = vrfProofBytes)

def new (entries : List VrfContribution) : Except DecodeError VrfBatch := do
  ensure .limitExceeded (entries.length ≤ maxRotationValidators)
  let result : VrfBatch := ⟨entries.insertionSort (·.validator ≤ ·.validator)⟩
  result.validateShape
  return result

def contributionBytes (c : Suite) (e : VrfContribution) : Except DecodeError Bytes := do
  let committee ← okOr .nonCanonical (e.committee.encode c)
  let producer ← okOr .nonCanonical (e.producer.encode c)
  return ascii "ALVRFC01" ++ (e.validator.1 ++ (committee ++ producer))

def toBytes (c : Suite) (b : VrfBatch) : Except DecodeError Bytes := do
  b.validateShape
  let entries ← b.entries.mapM (contributionBytes c)
  return ascii "ALVRFB01" ++ ([UInt8.ofNat b.entries.length] ++ entries.flatten)

end VrfBatch

namespace CommitteeState

section

variable (c : Suite)

/-- One roster entry of `validate`: a strong key with a weight, after all before it. -/
def checkValidator (acc : Option ValidatorId × Nat) (v : VrfValidator) :
    Except ConsensusError (Option ValidatorId × Nat) := do
  ensure .invalidProof (c.strongKey v.publicKey = true)
  ensure .invalidCommittee (v.weight ≠ 0 ∧ ∀ last ∈ acc.1, last < v.id c)
  let total ← okOr .invalidCommittee (checkedAdd128 acc.2 v.weight)
  return (some (v.id c), total)

def takeSeat (ids : List ValidatorId) (member : ValidatorId) :
    Except ConsensusError (List ValidatorId) := do
  ensure .invalidCommittee (member ∈ ids)
  return ids.filter (· ≠ member)

def validate (s : CommitteeState) : Except ConsensusError Unit := do
  ensure .invalidCommittee (s.chainId ≠ 0 ∧ s.genesis ≠ Hash256.zero ∧ s.height ≠ 0 ∧
    s.roster ≠ [] ∧ s.roster.length ≤ maxRotationValidators ∧ s.targetSize ≠ 0 ∧
    s.targetSize ≤ s.roster.length ∧ s.rotationCount ≤ s.targetSize ∧ s.members ≠ [] ∧
    s.members.length ≤ s.roster.length ∧
    ¬(s.members.length ≠ s.targetSize ∧ s.height ≠ 1) ∧
    ¬(s.height = 1 ∧ s.members.length ≠ s.roster.length) ∧ s.producer ∈ s.members ∧
    s.capacity.positive)
  let _ ← s.roster.foldlM (checkValidator c) (none, 0)
  let _ ← s.members.foldlM takeSeat (s.roster.map (·.id c))
  return ()

def registerKey (keys : List (ValidatorId × Fixed 32)) (key : Fixed 32) :
    Except ConsensusError (List (ValidatorId × Fixed 32)) := do
  ensure .invalidProof (c.strongKey key = true)
  ensure .invalidCommittee (keys.lookup (c.identity key)).isNone
  return (c.identity key, key) :: keys

def fromGenesis (g : Genesis) (keys : List (Fixed 32)) : Except ConsensusError CommitteeState := do
  let hash ← failAs .invalidCommittee (g.commitment c.blake2s)
  ensure .invalidCommittee (keys.length = g.validators.length ∧
    keys.length ≤ maxRotationValidators)
  let registry ← keys.foldlM (registerKey c) []
  let roster ← g.validators.mapM fun v => do
    let publicKey ← okOr .invalidCommittee (registry.lookup v.id)
    return ({ publicKey, weight := v.weight } : VrfValidator)
  let members := g.validators.map (·.id)
  let producer ← okOr .invalidCommittee members[1 % members.length]?
  let result : CommitteeState :=
    { chainId := g.chainId, genesis := hash, height := 1,
      randomness := domainHash c.blake2s (ascii "astrolune.rotation.genesis.v1") hash.1,
      capacity := g.capacity, targetSize := g.committeeSize, rotationCount := g.rotationCount,
      roster, members, producer }
  result.validate c
  return result

def weightOf (s : CommitteeState) (id : ValidatorId) : Nat :=
  ((s.roster.find? (·.id c = id)).map (·.weight)).getD 0

def committee (s : CommitteeState) : Committee where
  height := s.height
  members := s.members.map fun id => { id, power := s.weightOf c id }

def context (s : CommitteeState) : Except ConsensusError AuthenticatedCommittee :=
  AuthenticatedCommittee.new c.blake2s c.toVerifier s.chainId (s.committee c)
    ((s.roster.filter fun v => v.id c ∈ s.members).map (·.publicKey))

def input (s : CommitteeState) (role : VrfRole) : Except ConsensusError VrfInput := do
  let height ← okOr .invalidTransition (checkedAdd64 s.height.toNat 1)
  return { chainId := s.chainId, genesis := s.genesis, epoch := UInt64.ofNat height,
           height := UInt64.ofNat height, parentRandomness := s.randomness, round := 0, role }

def candidate (role : VrfRole) (pair : VrfValidator × VrfContribution) :
    Except ConsensusError Candidate := do
  ensure .unknownVoter (pair.1.id c = pair.2.validator)
  return { id := pair.2.validator, weight := pair.1.weight,
           vrf := match role with
             | .committee => pair.2.committee
             | .producer => pair.2.producer }

def sampler (s : CommitteeState) (batch : VrfBatch) (role : VrfRole) :
    Except ConsensusError VerifiedVrfSampler := do
  ensure .invalidCommittee (batch.entries.length = s.roster.length)
  let candidates ← (s.roster.zip batch.entries).mapM (candidate c role)
  VerifiedVrfSampler.new c (← s.input role) s.roster candidates

def transition (s : CommitteeState) (batch : VrfBatch) : Except ConsensusError CommitteeState := do
  failAs .invalidProof batch.validateShape
  let committee ← s.sampler c batch .committee
  let producer ← s.sampler c batch .producer
  let selected ← if s.members.length = s.targetSize
    then committee.rotate c (s.committee c) s.rotationCount
    else committee.select c s.targetSize
  let randomness := domainHash c.blake2s (ascii "astrolune.rotation.randomness.v1")
    (committee.randomness.1 ++ producer.randomness.1)
  let result : CommitteeState :=
    { s with height := selected.height, randomness,
             producer := ← producer.producerForSubset c selected,
             members := selected.members.map (·.id) }
  result.validate c
  return result

def withPotbCapacity (s : CommitteeState) (capacity : Resources) :
    Except ConsensusError CommitteeState := do
  let result := { s with capacity }
  result.validate c
  return result

def bindPotbNamespace (s : CommitteeState) (genesis : Hash256) : CommitteeState :=
  { s with genesis, randomness :=
      domainHash c.blake2s (ascii "astrolune.potb.randomness.genesis.v1") genesis.1 }

def transitionPotb (s : CommitteeState) (batch : VrfBatch) (roster : List VrfValidator) :
    Except ConsensusError CommitteeState := do
  failAs .invalidProof batch.validateShape
  let committee ← s.sampler c batch .committee
  let producer ← s.sampler c batch .producer
  let randomness := domainHash c.blake2s (ascii "astrolune.potb.randomness.v1")
    (committee.randomness.1 ++ producer.randomness.1)
  let eligible := roster.filter fun v => v.id c ∈ s.roster.map (·.id c)
  let committee ← committee.withPolicyWeights c eligible
  let producer ← producer.withPolicyWeights c eligible
  let selected ← committee.rotateEligible c (s.committee c) s.targetSize s.rotationCount
  let result : CommitteeState :=
    { s with height := selected.height, randomness,
             producer := ← producer.producerForSubset c selected,
             members := selected.members.map (·.id), roster }
  result.validate c
  return result

def validatorBytes (v : VrfValidator) : Bytes := v.publicKey.1 ++ leBytes 16 v.weight

def toBytes (s : CommitteeState) : Except DecodeError Bytes := do
  failAs .nonCanonical (s.validate c)
  return ascii "ALCMST01" ++ (u32Bytes s.chainId ++ (s.genesis.1 ++ (u64Bytes s.height ++
    (s.randomness.1 ++ (s.capacity.bytes ++ ([UInt8.ofNat s.targetSize] ++
      ([UInt8.ofNat s.rotationCount] ++ ([UInt8.ofNat s.roster.length] ++
        ([UInt8.ofNat s.members.length] ++ (s.producer.1 ++ (s.roster.flatMap validatorBytes ++
          s.members.flatMap Subtype.val)))))))))))

end

section

variable {c : Suite} {s next : CommitteeState}

lemma transition_ok {batch : VrfBatch} (h : s.transition c batch = .ok next) :
    next.validate c = .ok () ∧ ∀ role, ∃ verified, s.sampler c batch role = .ok verified := by
  simp only [transition,bind_eq_ok] at h
  obtain ⟨_,_,committee,hc,producer,hp,h⟩ := h
  have hs : ∀ role, ∃ verified, s.sampler c batch role = .ok verified := by
    intro role
    cases role with
    | committee => exact ⟨committee,hc⟩
    | producer => exact ⟨producer,hp⟩
  refine ⟨?_,hs⟩
  split at h <;>
    · simp only [bind_eq_ok,pure_ok_iff] at h
      obtain ⟨_,_,_,_,_,hv,rfl⟩ := h
      exact hv

lemma validate_seats {u : Unit} (h : s.validate c = .ok u) :
    ∀ id ∈ s.members, id ∈ s.roster.map (·.id c) := by
  simp only [validate,bind_eq_ok] at h
  obtain ⟨_,_,_,_,left,hs,_⟩ := h
  -- the identities still to take only shrink, and each seat was among them
  have ht : ∀ (ms ids left : List ValidatorId),
      ms.foldlM takeSeat ids = .ok left → ∀ id ∈ ms, id ∈ ids := by
    intro ms
    induction ms with
    | nil => simp
    | cons member rest ih =>
      intro ids left h id hi
      simp only [foldlM_cons,takeSeat,bind_eq_ok,ensure_eq_ok,pure_ok_iff] at h
      obtain ⟨_,⟨_,hm,rfl⟩,hr⟩ := h
      rcases mem_cons.mp hi with rfl | hi
      · exact hm
      · exact (mem_filter.mp (ih _ _ hr id hi)).1
  exact ht _ _ _ hs

lemma withPotbCapacity_ok {capacity : Resources} (h : s.withPotbCapacity c capacity = .ok next) :
    next = { s with capacity } ∧ next.validate c = .ok () := by
  simp only [withPotbCapacity,bind_eq_ok,pure_ok_iff] at h
  obtain ⟨_,hv,rfl⟩ := h
  exact ⟨rfl,hv⟩

/-- What the policy profile's rotation leaves: the given roster, a valid committee of the next
height, and seats only for identities of the parent roster. -/
structure RotatedPotb (c : Suite) (s : CommitteeState) (roster : List VrfValidator)
    (next : CommitteeState) : Prop where
  roster_eq : next.roster = roster
  chain_eq : next.chainId = s.chainId
  genesis_eq : next.genesis = s.genesis
  valid : next.validate c = .ok ()
  seated : ∀ id ∈ next.members, id ∈ s.roster.map (·.id c)

lemma transitionPotb_ok {batch : VrfBatch} {roster : List VrfValidator}
    (h : s.transitionPotb c batch roster = .ok next) : RotatedPotb c s roster next := by
  simp only [transitionPotb,bind_eq_ok,pure_ok_iff] at h
  obtain ⟨_,_,_,_,_,_,com,hw,_,_,selected,hr,_,_,_,hva,rfl⟩ := h
  refine ⟨rfl,rfl,rfl,hva,?_⟩
  intro id hi
  obtain ⟨m,hm,rfl⟩ := mem_map.mp hi
  have he := VerifiedVrfSampler.ids_of_withPolicyWeights hw m
    (VerifiedVrfSampler.mem_of_rotateEligible hr m hm)
  obtain ⟨v,hv,hi⟩ := mem_map.mp he
  rw [← hi]
  simpa using (mem_filter.mp hv).2

end

end CommitteeState

def VrfContribution.verify (c : Suite) (e : VrfContribution) (current : CommitteeState) :
    Except ConsensusError Unit := do
  let validator ← okOr .unknownVoter (current.roster.find? (·.id c = e.validator))
  [(VrfRole.committee, e.committee), (VrfRole.producer, e.producer)].forM fun (role, proof) => do
    let input ← current.input role
    ensure .invalidProof (verifyVrf c validator.publicKey (input.seed c.blake2s) proof)

structure ContributionPool where
  current : CommitteeState
  entries : OrderedMap ValidatorId VrfContribution

namespace ContributionPool

variable (c : Suite)

def new (current : CommitteeState) : ContributionPool := ⟨current, .empty⟩

def insert (p : ContributionPool) (e : VrfContribution) :
    Except ConsensusError Bool × ContributionPool :=
  if p.entries.get e.validator = some e then (.ok false, p)
  else
    match e.verify c p.current with
    | .error why => (.error why, p)
    | .ok () =>
      if (p.entries.get e.validator).isSome then (.error .invalidProof, p)
      else (.ok true, { p with entries := p.entries.insert e.validator e })

def complete (p : ContributionPool) : Except ConsensusError VrfBatch := do
  ensure .invalidCommittee (p.entries.entries.length = p.current.roster.length)
  failAs .invalidProof (VrfBatch.new (p.entries.entries.map (·.2)))

end ContributionPool

end Astrolune.Consensus
