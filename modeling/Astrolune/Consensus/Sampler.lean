import Astrolune.Consensus.Certificate
import Astrolune.Crypto.Vrf
import Astrolune.Lib.OrderedMap

namespace Astrolune.Consensus
open Lib Codec Crypto List

structure VrfValidator where
  publicKey : Fixed 32
  weight : Nat
  deriving DecidableEq

/-- `rotation::identity` of a roster entry. -/
def VrfValidator.id (c : Suite) (v : VrfValidator) : ValidatorId := c.identity v.publicKey

structure Candidate where
  id : ValidatorId
  weight : Nat
  vrf : VrfOutput

structure VerifiedVrfSampler where
  input : VrfInput
  members : List CommitteeMember
  randomness : Hash256
  deriving DecidableEq

def ticketValue (hash : Hash256) : Nat := leNat (hash.1.take 16).reverse

/-- The attempts from `attempt` on, of which the first unbiased one counts. -/
def tryTickets (H : Hasher) (seed : Hash256) (seat total threshold : Nat) :
    Nat → Nat → Except ConsensusError Nat
  | 0, _ => .error .invalidProof
  | left+1, attempt =>
    let value := ticketValue (domainHash H (ascii "astrolune.vrf.draw.v1")
      (seed.1 ++ (leBytes 8 seat ++ leBytes 4 attempt)))
    if threshold ≤ value then .ok (value % total)
    else tryTickets H seed seat total threshold left (attempt + 1)

def drawTicket (H : Hasher) (seed : Hash256) (seat total : Nat) :
    Except ConsensusError Nat :=
  if total = 0 then .error .invalidCommittee
  else tryTickets H seed seat total ((2 ^ 128 - total) % total) 256 0

def ticketIndex (ticket : Nat) : Nat → List CommitteeMember → Option Nat
  | _, [] => none
  | upper, m :: rest =>
    if ticket < upper + m.power then some 0
    else (ticketIndex ticket (upper + m.power) rest).map (· + 1)

def poolWeight (pool : List CommitteeMember) : Except ConsensusError Nat :=
  pool.foldlM (fun total m => okOr .invalidCommittee (checkedAdd128 total m.power)) 0

namespace VerifiedVrfSampler

section

variable (c : Suite)

def registerRoster (acc : OrderedMap ValidatorId Nat × Nat) (member : VrfValidator) :
    Except ConsensusError (OrderedMap ValidatorId Nat × Nat) := do
  ensure .invalidProof (c.strongKey member.publicKey = true)
  ensure .invalidCommittee (member.weight ≠ 0 ∧ acc.1.get (member.id c) = none)
  let total ← okOr .invalidCommittee (checkedAdd128 acc.2 member.weight)
  return (acc.1.insert (member.id c) member.weight, total)

def checkCandidate (roster : List VrfValidator) (weights : OrderedMap ValidatorId Nat)
    (seed : Hash256) (proofs : OrderedMap ValidatorId Hash256) (candidate : Candidate) :
    Except ConsensusError (OrderedMap ValidatorId Hash256) := do
  ensure .invalidCommittee (weights.get candidate.id = some candidate.weight ∧
    proofs.get candidate.id = none)
  ensure .invalidProof ((roster.find? (·.id c = candidate.id)).any fun v =>
    verifyVrf c v.publicKey seed candidate.vrf)
  return proofs.insert candidate.id candidate.vrf.randomness

def transcript (seed : Hash256) (weights : OrderedMap ValidatorId Nat)
    (proofs : OrderedMap ValidatorId Hash256) : Bytes :=
  seed.1 ++ weights.entries.flatMap fun e =>
    e.1.1 ++ (leBytes 16 e.2 ++ ((proofs.get e.1).getD Hash256.zero).1)

def new (input : VrfInput) (roster : List VrfValidator) (candidates : List Candidate) :
    Except ConsensusError VerifiedVrfSampler := do
  ensure .invalidCommittee (roster ≠ [] ∧ roster.length ≤ maxCommitteeMembers ∧
    candidates.length = roster.length ∧ input.genesis ≠ Hash256.zero ∧ input.height ≠ 0 ∧
    ¬(input.role = .committee ∧ input.round ≠ 0))
  let (weights, _) ← roster.foldlM (registerRoster c) (.empty, 0)
  let seed := input.seed c.blake2s
  let proofs ← candidates.foldlM (checkCandidate c roster weights seed) .empty
  return { input, members := weights.entries.map fun e => ⟨e.1, e.2⟩,
           randomness := domainHash c.blake2s (ascii "astrolune.vrf.batch.v1")
             (transcript seed weights proofs) }

def drawSeats (randomness : Hash256) : Nat → Nat → List CommitteeMember →
    Except ConsensusError (List CommitteeMember)
  | 0, _, _ => .ok []
  | left+1, seat, pool => do
    let total ← poolWeight pool
    let ticket ← drawTicket c.blake2s randomness seat total
    let index ← okOr .invalidCommittee (ticketIndex ticket 0 pool)
    let selected ← okOr .invalidCommittee pool[index]?
    let rest ← drawSeats randomness left (seat + 1) (pool.eraseIdx index)
    return selected :: rest

def draw (s : VerifiedVrfSampler) (pool : List CommitteeMember) (count : Nat) :
    Except ConsensusError (List CommitteeMember) := do
  ensure .invalidCommittee (count ≤ pool.length)
  drawSeats c s.randomness count 0 pool

def select (s : VerifiedVrfSampler) (size : Nat) : Except ConsensusError Committee := do
  ensure .invalidCommittee (s.input.role = .committee ∧ size ≠ 0 ∧ size ≤ s.members.length)
  return { height := s.input.height, members := ← s.draw c s.members size }

def retainSeat (s : VerifiedVrfSampler) (old : CommitteeMember) :
    Except ConsensusError CommitteeMember :=
  okOr .invalidCommittee (s.members.find? (·.id = old.id))

def rotate (s : VerifiedVrfSampler) (current : Committee) (count : Nat) :
    Except ConsensusError Committee := do
  let _ ← current.totalPower
  ensure .invalidTransition (s.input.role = .committee ∧
    current.height.toNat + 1 = s.input.height.toNat ∧ count ≤ current.members.length)
  let retained ← (current.members.drop count).mapM s.retainSeat
  let drawn ← s.draw c (s.members.filter fun m => m.id ∉ retained.map (·.id)) count
  let committee : Committee := { height := s.input.height, members := retained ++ drawn }
  let _ ← committee.totalPower
  return committee

def sortById (members : List CommitteeMember) : List CommitteeMember :=
  members.insertionSort fun a b => a.id ≤ b.id

def producerForSubset (s : VerifiedVrfSampler) (committee : Committee) :
    Except ConsensusError ValidatorId := do
  let _ ← committee.totalPower
  ensure .invalidCommittee (s.input.role = .producer ∧ committee.height = s.input.height ∧
    ∀ m ∈ committee.members, m ∈ s.members)
  let drawn ← s.draw c (sortById committee.members) 1
  okOr .invalidCommittee (drawn.head?.map (·.id))

def reweigh (known : List ValidatorId) (acc : OrderedMap ValidatorId Nat × Nat) (v : VrfValidator) :
    Except ConsensusError (OrderedMap ValidatorId Nat × Nat) := do
  ensure .invalidCommittee (v.id c ∈ known ∧ v.weight ≠ 0 ∧ acc.1.get (v.id c) = none)
  let total ← okOr .invalidCommittee (checkedAdd128 acc.2 v.weight)
  return (acc.1.insert (v.id c) v.weight, total)

def withPolicyWeights (s : VerifiedVrfSampler) (roster : List VrfValidator) :
    Except ConsensusError VerifiedVrfSampler := do
  let (members, _) ← roster.foldlM (reweigh c (s.members.map (·.id))) (.empty, 0)
  ensure .invalidCommittee (members.entries ≠ [])
  return { s with members := members.entries.map fun e => ⟨e.1, e.2⟩ }

def rotateEligible (s : VerifiedVrfSampler) (current : Committee) (target count : Nat) :
    Except ConsensusError Committee := do
  let _ ← current.totalPower
  ensure .invalidTransition (s.input.role = .committee ∧
    current.height.toNat + 1 = s.input.height.toNat ∧ target ≠ 0 ∧ target ≤ s.members.length ∧
    count ≤ target)
  if current.members.length ≠ target then s.select c target
  else do
    let retained := (current.members.drop count).filterMap fun old => s.members.find? (·.id = old.id)
    let drawn ← s.draw c (s.members.filter fun m => m.id ∉ retained.map (·.id))
      (target - retained.length)
    return { height := s.input.height, members := retained ++ drawn }

end

section

variable {c : Suite} {s : VerifiedVrfSampler}

variable {pool drawn : List CommitteeMember} {count : Nat} {com : Committee}

lemma mem_of_drawSeats {randomness : Hash256} {left seat : Nat}
    (h : drawSeats c randomness left seat pool = .ok drawn) : ∀ m ∈ drawn, m ∈ pool := by
  induction left generalizing seat pool drawn with
  | zero =>
    cases h
    simp
  | succ left ih =>
    simp only [drawSeats,bind_eq_ok,okOr_eq_ok,pure_ok_iff] at h
    obtain ⟨_,_,_,_,index,_,selected,hs,rest,hr,rfl⟩ := h
    intro m hm
    rcases mem_cons.mp hm with rfl | hm
    · exact mem_of_getElem? hs
    · exact mem_of_mem_eraseIdx (ih hr m hm)

lemma mem_of_draw (h : s.draw c pool count = .ok drawn) : ∀ m ∈ drawn, m ∈ pool := by
  simp only [draw,bind_eq_ok] at h
  obtain ⟨_,_,h⟩ := h
  exact mem_of_drawSeats h

lemma mem_of_select {size : Nat} (h : s.select c size = .ok com) :
    ∀ m ∈ com.members, m ∈ s.members := by
  simp only [select,bind_eq_ok,pure_ok_iff] at h
  obtain ⟨_,_,drawn,hd,rfl⟩ := h
  exact mem_of_draw hd

lemma mem_of_rotateEligible {cur : Committee} {target : Nat}
    (h : s.rotateEligible c cur target count = .ok com) :
    ∀ m ∈ com.members, m ∈ s.members := by
  simp only [rotateEligible,bind_eq_ok] at h
  obtain ⟨_,_,_,_,h⟩ := h
  split at h
  · exact mem_of_select h
  · simp only [bind_eq_ok,pure_ok_iff] at h
    obtain ⟨drawn,hd,rfl⟩ := h
    intro m hm
    rcases mem_append.mp hm with hm | hm
    · obtain ⟨_,_,hf⟩ := mem_filterMap.mp hm
      exact mem_of_find?_eq_some hf
    · exact (mem_filter.mp (mem_of_draw hd m hm)).1

lemma ids_of_withPolicyWeights {roster : List VrfValidator} {next : VerifiedVrfSampler}
    (h : s.withPolicyWeights c roster = .ok next) :
    ∀ m ∈ next.members, m.id ∈ roster.map (·.id c) := by
  simp only [withPolicyWeights,bind_eq_ok,pure_ok_iff] at h
  obtain ⟨⟨weights,tot⟩,hf,_,_,rfl⟩ := h
  have hi : ∀ e ∈ weights.entries, e.1 ∈ roster.map (·.id c) := by
    refine foldlM_preserves (P := fun acc : OrderedMap ValidatorId Nat × Nat =>
      ∀ e ∈ acc.1.entries, e.1 ∈ roster.map (·.id c)) ?_ ?_ hf
    · intro acc v acc' hv ha hs e he
      simp only [reweigh,bind_eq_ok,pure_ok_iff] at hs
      obtain ⟨_,_,_,_,rfl⟩ := hs
      rcases OrderedMap.mem_insertEntry he with rfl | he
      · exact mem_map_of_mem hv
      · exact ha e he
    · simp [OrderedMap.empty]
  intro m hm
  obtain ⟨e,he,rfl⟩ := mem_map.mp hm
  exact hi e he

end

end VerifiedVrfSampler

end Astrolune.Consensus
