import Astrolune.Lib.Agreement
import Astrolune.Consensus.Permanence
import Astrolune.Consensus.Wire

namespace Astrolune.Consensus
open Lib Codec Crypto Option

def DoubleVoteEvidence.fromVotes (c : Suite) (context : AuthenticatedCommittee) (first second : Vote) :
    Except ConsensusError DoubleVoteEvidence := do
  let proof : DoubleVoteEvidence :=
    if earlierBlock first.block second.block then ⟨first, second⟩ else ⟨second, first⟩
  proof.verify c context
  return proof

namespace AuthenticatedCommittee

variable {c : Suite} {a : AuthenticatedCommittee} {vote : Vote}

lemma voteCredentials_of_authentic (h : a.Authentic c.blake2s c.toVerifier vote) :
    ∃ req, a.voteCredentials c.blake2s vote = .ok (a.power vote.voter,req) ∧
      req.verify c.toVerifier = true := by
  obtain ⟨power,hp⟩ := isSome_iff_exists.mp h.member
  obtain ⟨key,hk,hs⟩ := h.signed
  refine ⟨⟨key,vote.signingHash c.blake2s,vote.signature⟩,?_,hs⟩
  have hsl := ensure_of (e := ConsensusError.invalidTransition)
    (⟨h.chain,h.height,h.root⟩ : vote.chainId = a.chainId ∧ vote.height = a.height ∧
      vote.committeeRoot = a.root)
  rw [voteCredentials,hsl,ok_bind,hp,hk,AuthenticatedCommittee.power,hp]
  rfl

lemma verifyVote_eq_ok {power : Nat} : a.verifyVote c vote = .ok power ↔
    a.Authentic c.blake2s c.toVerifier vote ∧ power = a.power vote.voter := by
  constructor
  · intro h
    simp only [verifyVote,bind_eq_ok,ensure_eq_ok,pure_ok_iff] at h
    obtain ⟨en,he,_,hv,rfl⟩ := h
    exact ⟨voteCredentials_authentic he hv,(voteCredentials_power he).symm⟩
  · rintro ⟨h,rfl⟩
    obtain ⟨req,hr,hv⟩ := voteCredentials_of_authentic h
    rw [verifyVote,hr,ok_bind]
    simp only [ensure_of hv,ok_bind,pure_eq_ok]

end AuthenticatedCommittee

namespace DoubleVoteEvidence

variable {c : Suite} {a : AuthenticatedCommittee} {left right : Vote}

lemma earlierBlock_asymm {left right : Option Hash256} (h : earlierBlock left right = true) :
    earlierBlock right left = false := by
  cases left <;> cases right
  case some.some left right =>
    exact decide_eq_false (of_decide_eq_true h).asymm
  case none.some => rfl
  all_goals cases h

lemma earlierBlock_total {left right : Option Hash256} (h : left ≠ right) :
    earlierBlock left right = true ∨ earlierBlock right left = true := by
  cases left <;> cases right
  case none.none => exact absurd rfl h
  case some.some left right =>
    have hn : left.1 ≠ right.1 := fun heq => h (congrArg some (Subtype.ext heq))
    exact (lt_or_gt_of_ne hn).imp decide_eq_true decide_eq_true
  case none.some => exact .inl rfl
  case some.none => exact .inr rfl

structure Slot (left right : Vote) : Prop where
  chain : left.chainId = right.chainId
  height : left.height = right.height
  root : left.committeeRoot = right.committeeRoot
  round : left.round = right.round
  phase : left.phase = right.phase
  voter : left.voter = right.voter

lemma Slot.symm (h : Slot left right) : Slot right left :=
  ⟨h.chain.symm,h.height.symm,h.root.symm,h.round.symm,h.phase.symm,h.voter.symm⟩

lemma verify_eq_ok {e : DoubleVoteEvidence} {u : Unit} : e.verify c a = .ok u ↔
    e.sameSlot ∧ a.Authentic c.blake2s c.toVerifier e.first ∧
      a.Authentic c.blake2s c.toVerifier e.second := by
  simp only [verify,bind_eq_ok,ensure_eq_ok,pure_eq_ok,AuthenticatedCommittee.verifyVote_eq_ok]
  constructor
  · rintro ⟨_,hsl,_,⟨hf,_⟩,_,⟨hs,_⟩,_⟩
    exact ⟨hsl,hf,hs⟩
  · rintro ⟨hsl,hf,hs⟩
    exact ⟨(),hsl,_,⟨hf,rfl⟩,_,⟨hs,rfl⟩,trivial⟩

lemma fromVotes_of_conflict (hs : Slot left right) (hb : left.block ≠ right.block)
    (hl : a.Authentic c.blake2s c.toVerifier left)
    (hr : a.Authentic c.blake2s c.toVerifier right) :
    ∃ e, fromVotes c a left right = .ok e ∧ fromVotes c a right left = .ok e ∧
      e.verify c a = .ok () := by
  -- By symmetry the vote for the lesser value may be the first one.
  wlog hf : earlierBlock left.block right.block = true generalizing left right
  · obtain ⟨e,ho,ht,hv⟩ := this hs.symm (Ne.symm hb) hr hl ((earlierBlock_total hb).resolve_left hf)
    exact ⟨e,ht,ho,hv⟩
  have hv : (⟨left,right⟩ : DoubleVoteEvidence).verify c a = .ok () :=
    verify_eq_ok.mpr ⟨⟨hs.chain,hs.height,hs.root,hs.round,hs.phase,hs.voter,hf⟩,hl,hr⟩
  refine ⟨⟨left,right⟩,?_,?_,hv⟩
  · rw [fromVotes,if_pos hf,hv]
    rfl
  · rw [fromVotes,if_neg (by rw [earlierBlock_asymm hf]; exact Bool.false_ne_true),hv]
    rfl

end DoubleVoteEvidence

lemma quorumPower_least {tot q : Nat} : 2 * tot < 3 * q ↔ quorumPower tot ≤ q := by
  unfold quorumPower
  omega

def FinalityCertificate.shared (left right : FinalityCertificate) : Finset ValidatorId :=
  (left.signatures.map (·.voter)).toFinset ∩ (right.signatures.map (·.voter)).toFinset

/-- Two certificates of one round for different blocks convict every voter they share, and those
voters weigh what two quorums must overlap in. -/
theorem conflicting_finality_accountable (c : Suite) :
    (∀ chainId committee keys a,
      AuthenticatedCommittee.new c.blake2s c.toVerifier chainId committee keys = .ok a →
      ∀ (left right : FinalityCertificate) (leftHeader rightHeader : BlockHeader),
      a.verifyCertificate c.blake2s c.toVerifier left leftHeader = .ok () →
      a.verifyCertificate c.blake2s c.toVerifier right rightHeader = .ok () →
      left.height = right.height → left.committeeRoot = right.committeeRoot →
      left.round = right.round → left.block ≠ right.block →
      2 * quorumPower a.total ≤ a.total + ∑ v ∈ left.shared right, a.power v ∧
      ∀ l ∈ left.signatures, ∀ r ∈ right.signatures, l.voter = r.voter →
        ∃ e, DoubleVoteEvidence.fromVotes c a (left.vote l) (right.vote r) = .ok e ∧
          DoubleVoteEvidence.fromVotes c a (right.vote r) (left.vote l) = .ok e ∧
          e.verify c a = .ok () ∧ DoubleVoteEvidence.decode e.encode = .ok e) ∧
    ∀ total, 1 ≤ total → total < 2 ^ 128 →
      total / 3 * 2 < 2 ^ 128 ∧ total % 3 * 2 < 2 ^ 128 ∧ quorumPower total < 2 ^ 128 ∧
      2 * total < 3 * quorumPower total ∧ ∀ q, 2 * total < 3 * q → quorumPower total ≤ q := by
  refine ⟨fun chainId committee keys a hn left right leftHeader rightHeader hle hri hh
    hro hrou hb => ⟨?_,fun l hl r hr hvo => ?_⟩,fun total hp hbo => ?_⟩
  · obtain ⟨_,hs⟩ := AuthenticatedCommittee.new_ok hn
    obtain ⟨hleftQuorum,_⟩ := AuthenticatedCommittee.verifyCertificate_ok hle
    obtain ⟨hrightQuorum,_⟩ := AuthenticatedCommittee.verifyCertificate_ok hri
    have hov := quorums_overlap hleftQuorum.1 hrightQuorum.1 hleftQuorum.2 hrightQuorum.2
    rwa [hs.members_power] at hov
  · have hleftVote := (AuthenticatedCommittee.verifyCertificate_ok hle).2 l hl
    have hrightVote := (AuthenticatedCommittee.verifyCertificate_ok hri).2 r hr
    have hsl : DoubleVoteEvidence.Slot (left.vote l) (right.vote r) :=
      ⟨hleftVote.chain.trans hrightVote.chain.symm,hh,hro,hrou,rfl,hvo⟩
    obtain ⟨e,ho,ht,hv⟩ := DoubleVoteEvidence.fromVotes_of_conflict hsl
      (fun heq => hb (some.inj heq)) hleftVote hrightVote
    exact ⟨e,ho,ht,hv,DoubleVoteEvidence.decode_eq_ok.mpr
      ⟨(DoubleVoteEvidence.verify_eq_ok.mp hv).1,rfl⟩⟩
  · refine ⟨?_,?_,?_,quorumPower_least.mpr (Nat.le_refl _),fun q hq => quorumPower_least.mp hq⟩
    · omega
    · omega
    · unfold quorumPower
      omega

namespace ForkedSeats
open TwoSteps

/-- Signatures are valid if they are those of the sample. -/
def suite : Suite := { TwoSteps.suite with ed25519Verify _ _ s := decide (s = signature) }

def seats : List UInt8 := [1, 2, 3, 4]

def committee : Committee := ⟨1, seats.map fun n => ⟨TwoSteps.id n, 1⟩⟩

def context : AuthenticatedCommittee :=
  ⟨7, 1, domainHash residueHash (ascii "astrolune.committee.v1") (committee.commitmentBytes 7), 4,
    seats.map fun n => (TwoSteps.id n, 1), seats.map TwoSteps.id,
    seats.reverse.map fun n => (TwoSteps.id n, key n)⟩

lemma accepted : AuthenticatedCommittee.new suite.blake2s suite.toVerifier 7 committee
    (seats.map key) = .ok context := by decide +kernel

def header (compute : UInt64) : BlockHeader :=
  { height := 1, parent := Hash256.zero, transactionsRoot := Hash256.zero, stateRoot := Hash256.zero,
    receiptsRoot := Hash256.zero, committeeRoot := context.root, capacity := ⟨compute, 1, 1, 1⟩ }

def certificate (compute : UInt64) (signers : List UInt8) : FinalityCertificate :=
  ⟨7, 1, 0, context.root, (header compute).computeHash residueHash,
    signers.map fun n => ⟨TwoSteps.id n, signature⟩⟩

end ForkedSeats

open ForkedSeats in
/-- Four seats, of which two sign both blocks. -/
theorem conflicting_finality_four_seats :
    2 * quorumPower 4 ≤ 4 + ∑ v ∈ (certificate 1 [1, 2, 3]).shared (certificate 2 [2, 3, 4]),
      context.power v ∧ quorumPower 4 < 2 ^ 128 := by
  have ho : context.verifyCertificate suite.blake2s suite.toVerifier
      (certificate 1 [1,2,3]) (header 1) = .ok () := by decide +kernel
  have ht : context.verifyCertificate suite.blake2s suite.toVerifier
      (certificate 2 [2,3,4]) (header 2) = .ok () := by decide +kernel
  have hf : (certificate 1 [1,2,3]).block ≠ (certificate 2 [2,3,4]).block := by decide +kernel
  exact ⟨((conflicting_finality_accountable suite).1 7 committee _ context accepted
    (certificate 1 [1,2,3]) (certificate 2 [2,3,4]) (header 1) (header 2) ho ht rfl rfl rfl hf).1,
    ((conflicting_finality_accountable suite).2 4 (by decide) (by decide)).2.2.1⟩

end Astrolune.Consensus
