import Mathlib.Algebra.BigOperators.Group.Finset.Basic
import Astrolune.Types.Header
import Astrolune.Consensus.Vote

namespace Astrolune.Consensus
open Lib Codec Crypto List

structure CertificateSignature where
  voter : ValidatorId
  signature : Fixed 64

structure FinalityCertificate where
  chainId : UInt32
  height : UInt64
  round : UInt32
  committeeRoot : Hash256
  block : Hash256
  signatures : List CertificateSignature

/-- No neighbours out of order or equal, as `windows(2)` sees them. -/
def ascending : List ValidatorId → Bool
  | a :: b :: rest => decide (a.1 < b.1) && ascending (b :: rest)
  | _ => true

def FinalityCertificate.validateShape (c : FinalityCertificate) : Except DecodeError Unit := do
  ensure .limitExceeded (c.signatures ≠ [] ∧ c.signatures.length ≤ maxCommitteeMembers)
  ensure .nonCanonical (ascending (c.signatures.map (·.voter)) = true)

def FinalityCertificate.vote (c : FinalityCertificate) (entry : CertificateSignature) : Vote :=
  ⟨c.chainId, c.committeeRoot, c.height, c.round, .precommit, some c.block, entry.voter,
    entry.signature⟩

/-- A non-nil prevote quorum. Only `fromVotes` builds one. -/
structure PrevoteCertificate where
  votes : List Vote
  nonempty : votes ≠ []
  deriving DecidableEq

namespace PrevoteCertificate

def first (c : PrevoteCertificate) : Vote := c.votes.head c.nonempty

def round (c : PrevoteCertificate) : UInt32 := c.first.round

def block (c : PrevoteCertificate) : Hash256 := c.first.block.getD Hash256.zero

def verifyContext (c : PrevoteCertificate) (a : AuthenticatedCommittee) :
    Except ConsensusError Unit :=
  ensure .invalidCertificate (c.first.chainId = a.chainId ∧ c.first.height = a.height ∧
    c.first.committeeRoot = a.root)

end PrevoteCertificate

/-- The cheap checks of each entry, up to the first rejection. -/
def hoist {α β : Type} (check : α → Except ConsensusError β) :
    List α → List β × Option ConsensusError
  | [] => ([], none)
  | entry :: rest =>
    match check entry with
    | .error e => ([], some e)
    | .ok found => (found :: (hoist check rest).1, (hoist check rest).2)

def rejectWith : Option ConsensusError → Except ConsensusError Unit
  | none => .ok ()
  | some e => .error e

def sumPowers (powers : List Nat) : Except ConsensusError Nat :=
  powers.foldlM (fun total power => okOr .invalidCertificate (checkedAdd128 total power)) 0

/-- The end that all certificates share: signatures as one batch, then the rejection that stopped the
cheap checks, then the weight. -/
def settle (verifier : Verifier) (quorum : Nat)
    (hoisted : List (Nat × DigestRequest) × Option ConsensusError) : Except ConsensusError Unit := do
  ensure .invalidProof (firstDigestFailure verifier (hoisted.1.map Prod.snd) = none)
  rejectWith hoisted.2
  let total ← sumPowers (hoisted.1.map Prod.fst)
  ensure .invalidCertificate (quorum ≤ total)

namespace AuthenticatedCommittee
variable (H : Hasher) (verifier : Verifier) (a : AuthenticatedCommittee)

def voteCredentials (vote : Vote) : Except ConsensusError (Nat × DigestRequest) := do
  ensure .invalidTransition (vote.chainId = a.chainId ∧ vote.height = a.height ∧
    vote.committeeRoot = a.root)
  let power ← okOr .unknownVoter (a.votingPower vote.voter)
  let publicKey ← okOr .invalidProof (a.registeredKey vote.voter)
  return (power, ⟨publicKey, vote.signingHash H, vote.signature⟩)

def tally (check : Vote → Except ConsensusError (Nat × DigestRequest)) (votes : List Vote) :
    Except ConsensusError Unit := settle verifier a.quorum (hoist check votes)

def verifyCertificate (c : FinalityCertificate) (header : BlockHeader) :
    Except ConsensusError Unit := do
  failAs .invalidCertificate c.validateShape
  ensure .invalidCertificate (header.height = a.height ∧ header.committeeRoot = a.root ∧
    c.chainId = a.chainId ∧ c.height = a.height ∧ c.committeeRoot = a.root ∧
    c.block = header.computeHash H ∧ c.signatures.length ≤ a.powers.length)
  a.tally verifier (a.voteCredentials H) (c.signatures.map c.vote)

def prevoteCredentials (first vote : Vote) : Except ConsensusError (Nat × DigestRequest) := do
  ensure .invalidCertificate (vote.phase = .prevote ∧ vote.round = first.round ∧
    vote.block = first.block)
  a.voteCredentials H vote

def verifyProposal (p : Proposal) (header : BlockHeader) (expected : ValidatorId)
    (genesis : Hash256) : Except ConsensusError Unit := do
  ensure .invalidTransition (genesis ≠ Hash256.zero ∧ p.genesis = genesis ∧
    p.chainId = a.chainId ∧ p.height = a.height ∧ p.committeeRoot = a.root ∧
    header.height = a.height ∧ header.committeeRoot = a.root ∧
    p.block = header.computeHash H ∧ p.proposer = expected ∧
    ∀ round ∈ p.validRound, round < p.round)
  ensure .unknownVoter (a.votingPower expected).isSome
  ensure .invalidProof ((a.registeredKey p.proposer).any fun key =>
    verifier.ed25519Verify key (p.signingHash H).1 p.signature)

end AuthenticatedCommittee

def PrevoteCertificate.fromVotes (H : Hasher) (verifier : Verifier)
    (a : AuthenticatedCommittee) (votes : List Vote) : Except ConsensusError PrevoteCertificate :=
  if h : votes = [] then .error .invalidCertificate
  else do
    ensure .invalidCertificate (votes.length ≤ maxCommitteeMembers ∧
      ascending (votes.map (·.voter)) = true)
    ensure .invalidCertificate (votes.head h).block.isSome
    a.tally verifier (a.prevoteCredentials H (votes.head h)) votes
    return ⟨votes, h⟩

def Proposal.verifyValidRound (p : Proposal) (a : AuthenticatedCommittee)
    (proof : Option PrevoteCertificate) : Except ConsensusError Unit :=
  match p.validRound, proof with
  | none, none => .ok ()
  | some round, some proof =>
    if round < p.round ∧ round = proof.round ∧ p.block = proof.block then proof.verifyContext a
    else .error .invalidCertificate
  | _, _ => .error .invalidCertificate

lemma ascending_iff {ids : List ValidatorId} : ascending ids = true ↔ ids.Pairwise (· < ·) := by
  rw [← isChain_iff_pairwise]
  induction ids with
  | nil => exact iff_of_true rfl .nil
  | cons a rest ih =>
    cases rest with
    | nil => exact iff_of_true rfl (.singleton _)
    | cons b rest =>
      rw [ascending,Bool.and_eq_true,decide_eq_true_eq,ih,isChain_cons_cons]
      exact Iff.rfl

lemma ascending_nodup {ids : List ValidatorId} (h : ascending ids = true) : ids.Nodup := by
  refine (ascending_iff.mp h).imp fun {a b} hl heq => ?_
  subst heq
  exact List.lt_irrefl a.1 hl

lemma hoist_ok {α β : Type} {check : α → Except ConsensusError β} {f : β → Nat} {g : α → Nat}
    {es : List α} {batch : List β} (h : hoist check es = (batch,none))
    (hfg : ∀ en fd, check en = .ok fd → g en = f fd) :
    (∀ en ∈ es, ∃ fd ∈ batch, check en = .ok fd) ∧ es.map g = batch.map f := by
  induction es generalizing batch with
  | nil =>
    cases h
    exact ⟨by simp,rfl⟩
  | cons en rest ih =>
    rw [hoist] at h
    split at h
    · cases h
    · rename_i fd hf
      obtain ⟨rfl,hn⟩ := Prod.mk.inj h
      obtain ⟨ha,hm⟩ := ih (Prod.ext rfl hn)
      refine ⟨fun other ho => ?_,by rw [map_cons,map_cons,hm,hfg en fd hf]⟩
      rcases mem_cons.mp ho with rfl | ho
      · exact ⟨fd,by simp,hf⟩
      · obtain ⟨found,hfo,hc⟩ := ha other ho
        exact ⟨found,mem_cons_of_mem _ hfo,hc⟩

lemma sumPowers_ok {powers : List Nat} {tot : Nat} (h : sumPowers powers = .ok tot) :
    tot = powers.sum := by
  have hg : ∀ start, powers.foldlM (fun tot power =>
      okOr ConsensusError.invalidCertificate (checkedAdd128 tot power)) start = .ok tot →
      tot = start + powers.sum := by
    clear h
    induction powers with
    | nil =>
      intro start h
      cases h
      rfl
    | cons power rest ih =>
      intro start h
      rw [foldlM_cons] at h
      obtain ⟨next,ha,h⟩ := bind_eq_ok.mp h
      rw [ih next h,(checkedAdd128_eq_some.mp (okOr_eq_ok.mp ha)).1,sum_cons,Nat.add_assoc]
  simpa using hg 0 h

lemma map_lookup {l : List (ValidatorId × Nat)} (h : (l.map Prod.fst).Nodup) :
    l.map (fun en => (l.lookup en.1).getD 0) = l.map Prod.snd := by
  induction l with
  | nil => rfl
  | cons en rest ih =>
    obtain ⟨hne,hr⟩ := nodup_cons.mp h
    have ht : rest.map (fun other => ((en :: rest).lookup other.1).getD 0) =
        rest.map (fun other => (rest.lookup other.1).getD 0) := by
      refine map_congr_left fun other ho => ?_
      have hn : other.1 ≠ en.1 := fun he => hne (he ▸ mem_map_of_mem ho)
      rw [lookup_cons,beq_eq_false_iff_ne.mpr hn]
    rw [map_cons,map_cons,ht,ih hr,lookup_cons_self,Option.getD_some]

namespace AuthenticatedCommittee
variable {H : Hasher} {verifier : Verifier} {a : AuthenticatedCommittee}

/-- A vote whose every signed field and signature this context has checked. -/
structure Authentic (H : Hasher) (verifier : Verifier) (a : AuthenticatedCommittee)
    (vote : Vote) : Prop where
  chain : vote.chainId = a.chainId
  height : vote.height = a.height
  root : vote.committeeRoot = a.root
  member : (a.votingPower vote.voter).isSome
  signed : ∃ key, a.registeredKey vote.voter = some key ∧
    verifier.ed25519Verify key (vote.signingHash H).1 vote.signature = true

def power (a : AuthenticatedCommittee) (validator : ValidatorId) : Nat :=
  (a.votingPower validator).getD 0

def members (a : AuthenticatedCommittee) : Finset ValidatorId := (a.powers.map Prod.fst).toFinset

def IsQuorum (a : AuthenticatedCommittee) (s : Finset ValidatorId) : Prop :=
  s ⊆ a.members ∧ a.quorum ≤ ∑ v ∈ s, a.power v

variable {vote : Vote} {en : Nat × DigestRequest} {votes : List Vote} {c : Committee}

lemma voteCredentials_power
    (h : a.voteCredentials H vote = .ok en) : a.power vote.voter = en.1 := by
  obtain ⟨_,_,h⟩ := bind_eq_ok.mp h
  obtain ⟨power,hp,h⟩ := bind_eq_ok.mp h
  obtain ⟨key,_,h⟩ := bind_eq_ok.mp h
  cases h
  simp [AuthenticatedCommittee.power,okOr_eq_ok.mp hp]

lemma voteCredentials_authentic
    (h : a.voteCredentials H vote = .ok en) (hv : en.2.verify verifier = true) :
    a.Authentic H verifier vote := by
  obtain ⟨_,hc,h⟩ := bind_eq_ok.mp h
  obtain ⟨power,hp,h⟩ := bind_eq_ok.mp h
  obtain ⟨key,hk,h⟩ := bind_eq_ok.mp h
  cases h
  obtain ⟨hch,hh,hr⟩ := ensure_eq_ok.mp hc
  exact ⟨hch,hh,hr,by simp [okOr_eq_ok.mp hp],key,okOr_eq_ok.mp hk,hv⟩

lemma tally_ok {check : Vote → Except ConsensusError (Nat × DigestRequest)}
    (hch : ∀ vote en, check vote = .ok en → a.voteCredentials H vote = .ok en)
    (h : a.tally verifier check votes = .ok ()) :
    (∀ vote ∈ votes, ∃ en, check vote = .ok en) ∧ (∀ vote ∈ votes, a.Authentic H verifier vote) ∧
      a.quorum ≤ (votes.map fun vote => a.power vote.voter).sum := by
  rcases hh : hoist check votes with ⟨batch,rejected⟩
  simp only [tally,settle,hh] at h
  obtain ⟨_,hve,h⟩ := bind_eq_ok.mp h
  obtain ⟨_,hr,h⟩ := bind_eq_ok.mp h
  obtain ⟨tot,hs,hq⟩ := bind_eq_ok.mp h
  obtain rfl : rejected = none := by
    cases rejected with
    | none => rfl
    | some e => cases hr
  have hve := firstDigestFailure_none.mp (ensure_eq_ok.mp hve)
  obtain ⟨ha,hw⟩ := hoist_ok (f := Prod.fst) (g := fun vote => a.power vote.voter) hh
    fun vote en hc => voteCredentials_power (hch vote en hc)
  refine ⟨fun vote hv => ?_,fun vote hv => ?_,?_⟩
  · obtain ⟨en,_,hc⟩ := ha vote hv
    exact ⟨en,hc⟩
  · obtain ⟨en,he,hc⟩ := ha vote hv
    exact voteCredentials_authentic (hch vote en hc) (hve en.2 (mem_map_of_mem he))
  · rw [hw,← sumPowers_ok hs]
    exact ensure_eq_ok.mp hq

lemma isQuorum_voters (has : ascending (votes.map (·.voter)) = true)
    (ha : ∀ vote ∈ votes, a.Authentic H verifier vote)
    (hq : a.quorum ≤ (votes.map fun vote => a.power vote.voter).sum) :
    a.IsQuorum (votes.map (·.voter)).toFinset := by
  constructor
  · intro v hv
    obtain ⟨vote,hm,rfl⟩ := mem_map.mp (mem_toFinset.mp hv)
    obtain ⟨en,he,hi⟩ := lookup_isSome_iff.mp (ha vote hm).member
    rw [members,mem_toFinset]
    exact mem_map.mpr ⟨en,he,(beq_iff_eq.mp hi).symm⟩
  · rw [sum_toFinset _ (ascending_nodup has),map_map]
    exact hq

lemma Seats.distinct (h : a.Seats H c) : (a.powers.map Prod.fst).Nodup := by
  rw [h.powers,Committee.powers,map_map]
  exact h.weighed.distinct

lemma Seats.members_power (h : a.Seats H c) : ∑ v ∈ a.members, a.power v = a.total := by
  have hs : (a.powers.map Prod.snd).sum = a.total := by
    rw [h.weighed.sum,h.powers,Committee.powers,map_map]
    rfl
  rw [members,sum_toFinset _ h.distinct,map_map,← hs,← map_lookup h.distinct]
  rfl

lemma verifyCertificate_ok {c : FinalityCertificate} {hdr : BlockHeader}
    (h : a.verifyCertificate H verifier c hdr = .ok ()) :
    a.IsQuorum (c.signatures.map (·.voter)).toFinset ∧
      ∀ en ∈ c.signatures, a.Authentic H verifier (c.vote en) := by
  obtain ⟨_,hs,h⟩ := bind_eq_ok.mp h
  obtain ⟨_,_,h⟩ := bind_eq_ok.mp h
  obtain ⟨_,_,has⟩ := bind_eq_ok.mp (failAs_eq_ok.mp hs)
  obtain ⟨_,ha,hq⟩ := tally_ok (fun _ _ hc => hc) h
  have hv : (c.signatures.map c.vote).map (·.voter) = c.signatures.map (·.voter) := by
    rw [map_map]
    rfl
  refine ⟨?_,fun en he => ha _ (mem_map_of_mem he)⟩
  rw [← hv]
  exact isQuorum_voters (hv ▸ ensure_eq_ok.mp has) ha hq

lemma fromVotes_ok {c : PrevoteCertificate}
    (h : PrevoteCertificate.fromVotes H verifier a votes = .ok c) :
    a.IsQuorum (c.votes.map (·.voter)).toFinset ∧ c.first.block = some c.block ∧
      ∀ vote ∈ c.votes, a.Authentic H verifier vote ∧ vote.phase = .prevote ∧
        vote.round = c.round ∧ vote.block = some c.block := by
  unfold PrevoteCertificate.fromVotes at h
  split at h
  · cases h
  rename_i hn
  obtain ⟨_,hsh,h⟩ := bind_eq_ok.mp h
  obtain ⟨_,hbl,h⟩ := bind_eq_ok.mp h
  obtain ⟨_,ht,h⟩ := bind_eq_ok.mp h
  cases h
  obtain ⟨block,hb⟩ := Option.isSome_iff_exists.mp (ensure_eq_ok.mp hbl)
  have hf : (votes.head hn).block = some (PrevoteCertificate.block ⟨votes,hn⟩) := by
    simp [PrevoteCertificate.block,PrevoteCertificate.first,hb]
  obtain ⟨hch,ha,hq⟩ := tally_ok (fun vote en hc => (bind_eq_ok.mp hc).choose_spec.2) ht
  refine ⟨isQuorum_voters (ensure_eq_ok.mp hsh).2 ha hq,hf,fun vote hv => ?_⟩
  obtain ⟨en,hc⟩ := hch vote hv
  obtain ⟨_,hs,_⟩ := bind_eq_ok.mp hc
  obtain ⟨hp,hr,hs⟩ := ensure_eq_ok.mp hs
  exact ⟨ha vote hv,hp,hr,hs.trans hf⟩

end AuthenticatedCommittee
end Astrolune.Consensus
