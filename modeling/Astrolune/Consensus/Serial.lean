import Astrolune.Consensus.Accountable
import Astrolune.Consensus.Governance

namespace Astrolune.Consensus
open Lib Codec Crypto List

section Loop

variable {α : Type} (verifier : Verifier) (check : α → Except ConsensusError (Nat × DigestRequest))

def serialEntry (total : Nat) (entry : α) : Except ConsensusError Nat := do
  let (power, request) ← check entry
  ensure .invalidProof (request.verify verifier = true)
  okOr .invalidCertificate (checkedAdd128 total power)

def serialTally (quorum : Nat) (entries : List α) : Except ConsensusError Unit := do
  let total ← entries.foldlM (serialEntry verifier check) 0
  ensure .invalidCertificate (quorum ≤ total)

end Loop

section Serial

variable {α : Type} {verifier : Verifier} {check : α → Except ConsensusError (Nat × DigestRequest)}
  {es : List α} {start : Nat}

/-- The serial loop reports the first fault there is: a bad signature among the entries before the
first one whose structure is rejected, or else that rejection. -/
lemma foldlM_serialEntry (h : start + ((hoist check es).1.map Prod.fst).sum < 2 ^ 128) :
    es.foldlM (serialEntry verifier check) start = (if firstDigestFailure verifier
          ((hoist check es).1.map Prod.snd) = none then
        match (hoist check es).2 with
        | none => .ok (start + ((hoist check es).1.map Prod.fst).sum)
        | some e => .error e
      else .error .invalidProof) := by
  induction es generalizing start with
  | nil => rfl
  | cons en rest ih =>
    rw [foldlM_cons]
    cases hc : check en with
    | error e =>
      have hh : hoist check (en :: rest) = ([],some e) := by rw [hoist,hc]
      rw [serialEntry,hc,hh]
      rfl
    | ok fd =>
      obtain ⟨power,req⟩ := fd
      have hh : hoist check (en :: rest) =
          ((power,req) :: (hoist check rest).1,(hoist check rest).2) := by
        rw [hoist,hc]
      rw [hh] at h ⊢
      simp only [map_cons,sum_cons,← Nat.add_assoc] at h ⊢
      rw [serialEntry,hc,ok_bind]
      by_cases hv : req.verify verifier = true
      · have ha : checkedAdd128 start power = some (start + power) := if_pos (by omega)
        have hr : firstDigestFailure verifier (req :: (hoist check rest).1.map Prod.snd) = none ↔
            firstDigestFailure verifier ((hoist check rest).1.map Prod.snd) = none := by
          simp only [firstDigestFailure_none,forall_mem_cons,hv,true_and]
        simp only [ensure_of hv,ok_bind,ha,okOr,ih h,hr]
      · have hf : ¬ firstDigestFailure verifier
            (req :: (hoist check rest).1.map Prod.snd) = none := by
          rw [firstDigestFailure_none,forall_mem_cons]
          exact fun hal => hv hal.1
        rw [if_neg hf]
        simp only [ensure,if_neg hv,error_bind]

lemma settle_eq_serial {quorum : Nat} (h : ((hoist check es).1.map Prod.fst).sum < 2 ^ 128) :
    settle verifier quorum (hoist check es) = serialTally verifier check quorum es := by
  have hz : 0 + ((hoist check es).1.map Prod.fst).sum < 2 ^ 128 := by
    rwa [Nat.zero_add]
  rw [settle,serialTally,foldlM_serialEntry hz,sumPowers,foldlM_checkedAdd _ hz]
  by_cases hb : firstDigestFailure verifier ((hoist check es).1.map Prod.snd) = none
  · rw [ensure_of hb,if_pos hb]
    cases (hoist check es).2 <;> rfl
  · rw [ensure,if_neg hb,if_neg hb]
    rfl

lemma hoist_powers {wt : α → Nat}
    (hc : ∀ en fd, check en = .ok fd → wt en = fd.1) :
    ∃ n, (hoist check es).1.map Prod.fst = (es.take n).map wt ∧
      ∀ en ∈ es.take n, ∃ fd, check en = .ok fd := by
  induction es with
  | nil => exact ⟨0,rfl,by simp⟩
  | cons en rest ih =>
    rw [hoist]
    cases he : check en with
    | error e => exact ⟨0,rfl,by simp⟩
    | ok fd =>
      obtain ⟨n,hp,ha⟩ := ih
      refine ⟨n + 1,?_,?_⟩
      · rw [take_succ_cons,map_cons,map_cons,hp,hc en fd he]
      · rw [take_succ_cons]
        exact forall_mem_cons.mpr ⟨⟨fd,he⟩,ha⟩

end Serial

namespace AuthenticatedCommittee

variable {H : Hasher} {a : AuthenticatedCommittee} {com : Committee}
  {α : Type} {check : α → Except ConsensusError (Nat × DigestRequest)} {es : List α}
  {voter : α → ValidatorId}

lemma Seats.sum_power_le (h : a.Seats H com) {voters : List ValidatorId}
    (hd : voters.Nodup) (hm : ∀ v ∈ voters, (a.votingPower v).isSome) :
    (voters.map a.power).sum ≤ a.total := by
  rw [← sum_toFinset _ hd,← h.members_power]
  refine Finset.sum_le_sum_of_subset fun v hv => ?_
  obtain ⟨en,he,hi⟩ := lookup_isSome_iff.mp (hm v (mem_toFinset.mp hv))
  rw [members,mem_toFinset]
  exact mem_map.mpr ⟨en,he,(beq_iff_eq.mp hi).symm⟩

lemma Seats.hoisted_lt (h : a.Seats H com) (has : ascending (es.map voter) = true)
    (hc : ∀ en fd, check en = .ok fd → a.votingPower (voter en) = some fd.1) :
    ((hoist check es).1.map Prod.fst).sum < 2 ^ 128 := by
  have hw : ∀ en fd, check en = .ok fd → a.power (voter en) = fd.1 :=
    fun en fd hf => by rw [power,hc en fd hf,Option.getD_some]
  obtain ⟨n,hp,ha⟩ := @hoist_powers _ _ es _ hw
  have hd : ((es.take n).map voter).Nodup :=
    (ascending_nodup has).sublist ((take_sublist n es).map voter)
  have hl := h.sum_power_le hd fun v hv => by
    obtain ⟨en,he,rfl⟩ := mem_map.mp hv
    obtain ⟨fd,hf⟩ := ha en he
    rw [hc en fd hf]
    rfl
  rw [map_map] at hl
  rw [hp]
  exact Nat.lt_of_le_of_lt hl h.weighed.bounded

lemma voteCredentials_votingPower {vote : Vote} {fd : Nat × DigestRequest}
    (h : a.voteCredentials H vote = .ok fd) : a.votingPower vote.voter = some fd.1 := by
  simp only [voteCredentials,bind_eq_ok,okOr_eq_ok,pure_ok_iff] at h
  obtain ⟨_,_,power,hp,_,_,rfl⟩ := h
  exact hp

end AuthenticatedCommittee

lemma Approval.credentials_votingPower {req : Approvable} {ctx : AuthenticatedCommittee}
    {keys : List (ValidatorId × Fixed 32)} {approval : Approval} {fd : Nat × DigestRequest}
    (h : Approval.credentials req ctx keys approval = .ok fd) :
    ctx.votingPower approval.voter = some fd.1 := by
  simp only [Approval.credentials,bind_eq_ok,okOr_eq_ok,pure_ok_iff] at h
  obtain ⟨_,_,power,hp,_,_,rfl⟩ := h
  exact hp

namespace AuthenticatedCommittee

variable (H : Hasher) (verifier : Verifier) (a : AuthenticatedCommittee)

def verifyCertificateSerial (c : FinalityCertificate) (header : BlockHeader) :
    Except ConsensusError Unit := do
  failAs .invalidCertificate c.validateShape
  ensure .invalidCertificate (header.height = a.height ∧ header.committeeRoot = a.root ∧
    c.chainId = a.chainId ∧ c.height = a.height ∧ c.committeeRoot = a.root ∧
    c.block = header.computeHash H ∧ c.signatures.length ≤ a.powers.length)
  serialTally verifier (a.voteCredentials H) a.quorum (c.signatures.map c.vote)

end AuthenticatedCommittee

def PrevoteCertificate.fromVotesSerial (H : Hasher) (verifier : Verifier)
    (a : AuthenticatedCommittee) (votes : List Vote) : Except ConsensusError PrevoteCertificate :=
  if h : votes = [] then .error .invalidCertificate
  else do
    ensure .invalidCertificate (votes.length ≤ maxCommitteeMembers ∧
      ascending (votes.map (·.voter)) = true)
    ensure .invalidCertificate (votes.head h).block.isSome
    serialTally verifier (a.prevoteCredentials H (votes.head h)) a.quorum votes
    return ⟨votes, h⟩

def Approval.serial (c : Suite) (current : CommitteeState) (request : Approvable)
    (approvals : List Approval) : Except ConsensusError Unit := do
  let context ← current.context c
  serialTally c.toVerifier (credentials request context (current.rosterKeys c)) context.quorum
    approvals

def AdmissionCertificate.verifySerial (c : Suite) (a : AdmissionCertificate) (current : CommitteeState)
    (parent : Hash256) : Except ConsensusError Unit := do
  failAs .invalidCertificate (a.validateShape c)
  a.request.verify c current parent
  Approval.serial c current (a.request.approvable c) a.approvals

def GovernanceCertificate.verifySerial (c : Suite) (g : GovernanceCertificate)
    (current : CommitteeState) (parent : Hash256) (policy : GovernanceState) :
    Except ConsensusError Unit := do
  failAs .invalidCertificate (g.validateShape c.blake2s)
  policy.verifyRequest c current parent g.request
  Approval.serial c current (g.request.approvable c) g.approvals

namespace AuthenticatedCommittee

variable {H : Hasher} {a : AuthenticatedCommittee} {com : Committee}

lemma Seats.verifyCertificate_eq_serial (h : a.Seats H com) (verifier : Verifier)
    (c : FinalityCertificate) (hdr : BlockHeader) :
    a.verifyCertificate H verifier c hdr = a.verifyCertificateSerial H verifier c hdr := by
  refine bind_congr_ok fun _ hs => bind_congr_ok fun _ _ => ?_
  obtain ⟨_,_,ha⟩ := bind_eq_ok.mp (failAs_eq_ok.mp hs)
  have hv : (c.signatures.map c.vote).map (·.voter) = c.signatures.map (·.voter) := by
    rw [map_map]
    rfl
  exact settle_eq_serial (h.hoisted_lt (hv ▸ ensure_eq_ok.mp ha)
    fun _ _ hf => voteCredentials_votingPower hf)

lemma Seats.fromVotes_eq_serial (h : a.Seats H com) (verifier : Verifier)
    (votes : List Vote) : PrevoteCertificate.fromVotes H verifier a votes =
      PrevoteCertificate.fromVotesSerial H verifier a votes := by
  unfold PrevoteCertificate.fromVotes PrevoteCertificate.fromVotesSerial
  split
  · rfl
  · next hn =>
    refine bind_congr_ok fun _ hs => bind_congr_ok fun _ _ => ?_
    have hc : ∀ vote fd, a.prevoteCredentials H (votes.head hn) vote = .ok fd →
        a.votingPower vote.voter = some fd.1 := by
      intro vote fd hf
      obtain ⟨_,_,hf⟩ := bind_eq_ok.mp hf
      exact voteCredentials_votingPower hf
    rw [AuthenticatedCommittee.tally,settle_eq_serial (h.hoisted_lt (ensure_eq_ok.mp hs).2 hc)]

end AuthenticatedCommittee

lemma Approval.tally_eq_serial (c : Suite) (cur : CommitteeState) (req : Approvable)
    {approvals : List Approval} (ha : ascending (approvals.map (·.voter)) = true) :
    Approval.tally c cur req approvals = Approval.serial c cur req approvals := by
  refine bind_congr_ok fun ctx hc => ?_
  obtain ⟨_,hs⟩ := AuthenticatedCommittee.new_ok hc
  exact settle_eq_serial (hs.hoisted_lt ha fun _ _ hf => credentials_votingPower hf)

lemma AdmissionCertificate.verify_eq_serial (c : Suite) (a : AdmissionCertificate)
    (cur : CommitteeState) (par : Hash256) :
    a.verify c cur par = a.verifySerial c cur par := by
  refine bind_congr_ok fun _ hs => bind_congr_ok fun _ _ => ?_
  have hs := failAs_eq_ok.mp hs
  simp only [validateShape,bind_eq_ok,ensure_eq_ok] at hs
  obtain ⟨_,_,_,_,ha,_⟩ := hs
  exact Approval.tally_eq_serial c cur _ ha

lemma GovernanceCertificate.verify_eq_serial (c : Suite) (g : GovernanceCertificate)
    (cur : CommitteeState) (par : Hash256) (policy : GovernanceState) :
    g.verify c cur par policy = g.verifySerial c cur par policy := by
  refine bind_congr_ok fun _ hs => bind_congr_ok fun _ _ => ?_
  have hs := failAs_eq_ok.mp hs
  simp only [validateShape,bind_eq_ok,ensure_eq_ok] at hs
  obtain ⟨_,_,_,_,ha,_⟩ := hs
  exact Approval.tally_eq_serial c cur _ ha

/-- However the signatures are split among workers, a certificate gets the verdict of the loop that
checks its entries one after the other. -/
theorem batched_verdicts_serial (c : Suite) :
    (∀ (requests : List DigestRequest) (workers : Nat) (spawned : Bool),
      firstFailure (DigestRequest.verify c.toVerifier) requests workers spawned =
        firstDigestFailure c.toVerifier requests ∧
      (∀ i, firstFailure (DigestRequest.verify c.toVerifier) requests workers spawned = some i →
        (∃ r, requests[i]? = some r ∧ r.verify c.toVerifier = false) ∧
        ∀ j < i, ∀ r, requests[j]? = some r → r.verify c.toVerifier = true) ∧
      (firstFailure (DigestRequest.verify c.toVerifier) requests workers spawned = none ↔
        ∀ r ∈ requests, r.verify c.toVerifier = true)) ∧
    (∀ chainId committee keys a,
      AuthenticatedCommittee.new c.blake2s c.toVerifier chainId committee keys = .ok a →
      (∀ certificate header, a.verifyCertificate c.blake2s c.toVerifier certificate header =
        a.verifyCertificateSerial c.blake2s c.toVerifier certificate header) ∧
      ∀ votes, PrevoteCertificate.fromVotes c.blake2s c.toVerifier a votes =
        PrevoteCertificate.fromVotesSerial c.blake2s c.toVerifier a votes) ∧
    ∀ (current : CommitteeState) (parent : Hash256),
      (∀ certificate : AdmissionCertificate, certificate.verify c current parent =
        certificate.verifySerial c current parent) ∧
      ∀ (certificate : GovernanceCertificate) policy, certificate.verify c current parent policy =
        certificate.verifySerial c current parent policy := by
  refine ⟨fun requests workers spawned => ?_,fun chainId committee keys a hn => ?_,
    fun current parent => ⟨fun certificate => certificate.verify_eq_serial c current parent,
      fun certificate policy => certificate.verify_eq_serial c current parent policy⟩⟩
  · rw [firstDigestFailure,firstFailure_eq,firstFailure_eq]
    refine ⟨rfl,fun i hi => ?_,by simp⟩
    obtain ⟨hl,hf,hb⟩ := findIdx?_eq_some_iff_getElem.mp hi
    refine ⟨⟨requests[i],getElem?_eq_getElem hl,by simpa using hf⟩,fun j hj r hr => ?_⟩
    obtain ⟨hjl,rfl⟩ := List.getElem?_eq_some_iff.mp hr
    simpa using hb j hj
  · obtain ⟨_,hs⟩ := AuthenticatedCommittee.new_ok hn
    exact ⟨fun certificate header => hs.verifyCertificate_eq_serial _ certificate header,
      fun votes => hs.fromVotes_eq_serial _ votes⟩

namespace ForkedSeats

def forged (n : UInt8) : CertificateSignature := ⟨TwoSteps.id n, Fixed.fill 64 1⟩

/-- An accepted certificate, one without a quorum, one whose forged signature stands before an
unknown voter, and one where it stands after. -/
def certificates : List FinalityCertificate :=
  let few := certificate 1 [1, 2]
  let unknown : CertificateSignature := ⟨TwoSteps.id 9, TwoSteps.signature⟩
  [certificate 1 [1, 2, 4], few, { few with signatures := few.signatures ++ [forged 3, unknown] },
    { few with signatures := ⟨TwoSteps.id 0, TwoSteps.signature⟩ :: few.signatures ++ [forged 3] }]

end ForkedSeats

open ForkedSeats in
theorem batched_verdicts_four_seats :
    certificates.map (context.verifyCertificateSerial suite.blake2s suite.toVerifier · (header 1)) =
      [.ok (), .error .invalidCertificate, .error .invalidProof, .error .unknownVoter] := by
  have hs := ((batched_verdicts_serial suite).2.1 7 committee _ context accepted).1
  simp only [← hs]
  decide +kernel

end Astrolune.Consensus
