import Mathlib.Data.Prod.Lex
import Astrolune.Consensus.Serial
import Astrolune.Lib.Run

namespace Astrolune.Consensus
open Lib Codec Crypto List Function

def VotePhase.rank : VotePhase → Nat
  | .prevote => 0
  | .precommit => 1

lemma VotePhase.rank_injective : Injective VotePhase.rank := by
  intro a b h
  cases a <;> cases b <;> first | rfl | cases h

instance : LinearOrder VotePhase := LinearOrder.lift' VotePhase.rank VotePhase.rank_injective

abbrev VoteKey := ValidatorId ×ₗ VotePhase

def Vote.key (v : Vote) : VoteKey := toLex (v.voter, v.phase)

structure BftFinalityEngine where
  context : AuthenticatedCommittee
  round : UInt32
  votes : OrderedMap VoteKey Vote
  power : VotePhase → Option Hash256 → Nat
  certificate : Option FinalityCertificate
  evidence : OrderedMap ValidatorId DoubleVoteEvidence

namespace BftFinalityEngine

def supporters (e : BftFinalityEngine) (phase : VotePhase) (block : Option Hash256) : List Vote :=
  (e.votes.entries.map Prod.snd).filter fun v => v.phase = phase ∧ v.block = block

section

variable (c : Suite) (e : BftFinalityEngine)

def prevoteCertificate (block : Hash256) : Except ConsensusError PrevoteCertificate :=
  PrevoteCertificate.fromVotes c.blake2s c.toVerifier e.context (e.supporters .prevote (some block))

def forRound (context : AuthenticatedCommittee) (round : UInt32) : BftFinalityEngine :=
  { context, round, votes := .empty, power := fun _ _ => 0, certificate := none, evidence := .empty }

def advanceRound : Except ConsensusError Unit × BftFinalityEngine :=
  if e.certificate.isSome then (.error .invalidTransition, e)
  else if e.round.toNat + 1 < 2 ^ 32 then
    (.ok (), { e with round := e.round + 1, votes := .empty, power := fun _ _ => 0 })
  else (.error .invalidTransition, e)

def receiveAgain (previous vote : Vote) : Except ConsensusError Unit × BftFinalityEngine :=
  if previous.block = vote.block then (.error .duplicateVote, e)
  else if e.evidence.get vote.voter ≠ none then (.error .equivocation, e)
  else
    match DoubleVoteEvidence.fromVotes c e.context previous vote with
    | .error why => (.error why, e)
    | .ok proof => (.error .equivocation, { e with evidence := e.evidence.insert vote.voter proof })

def store (vote : Vote) (total : Nat) : BftFinalityEngine :=
  { e with
    votes := e.votes.insert vote.key vote
    power := update e.power vote.phase
      (update (e.power vote.phase) vote.block total) }

def certificateOf (block : Hash256) : FinalityCertificate where
  chainId := e.context.chainId
  height := e.context.height
  round := e.round
  committeeRoot := e.context.root
  block := block
  signatures := (e.supporters .precommit (some block)).map fun v => ⟨v.voter, v.signature⟩

def certify (vote : Vote) (total : Nat) : BftFinalityEngine :=
  match vote.block with
  | none => e
  | some block =>
    if vote.phase = .precommit ∧ e.context.quorum ≤ total then
      { e with certificate := some (e.certificateOf block) }
    else e

def receiveVote (vote : Vote) : Except ConsensusError Unit × BftFinalityEngine :=
  if vote.round ≠ e.round then (.error .invalidTransition, e)
  else
    match e.context.verifyVote c vote with
    | .error why => (.error why, e)
    | .ok power =>
      match e.votes.get vote.key with
      | some previous => e.receiveAgain c previous vote
      | none =>
        if e.certificate.isSome then (.error .invalidTransition, e)
        else
          match checkedAdd128 (e.power vote.phase vote.block) power with
          | none => (.error .invalidCommittee, e)
          | some total => (.ok (), (e.store vote total).certify vote total)

end

end BftFinalityEngine

section Tally

variable {c : Suite} {a : AuthenticatedCommittee} {votes : List Vote}
  {check : Vote → Except ConsensusError (Nat × DigestRequest)}

lemma hoist_of_authentic (hc : ∀ v ∈ votes, check v = a.voteCredentials c.blake2s v)
    (ha : ∀ v ∈ votes, a.Authentic c.blake2s c.toVerifier v) :
    ∃ batch, hoist check votes = (batch,none) ∧
      (∀ req ∈ batch.map Prod.snd, req.verify c.toVerifier = true) ∧
      batch.map Prod.fst = votes.map fun v => a.power v.voter := by
  induction votes with
  | nil => exact ⟨[],rfl,by simp,rfl⟩
  | cons v rest ih =>
    obtain ⟨hf,ho⟩ := forall_mem_cons.mp hc
    obtain ⟨hv,hre⟩ := forall_mem_cons.mp ha
    obtain ⟨batch,hb,hve,hp⟩ := ih ho hre
    obtain ⟨req,hr,hs⟩ := AuthenticatedCommittee.voteCredentials_of_authentic hv
    refine ⟨(a.power v.voter,req) :: batch,?_,?_,?_⟩
    · rw [hoist,hf,hr]
      simp only [hb]
    · rw [map_cons]
      exact forall_mem_cons.mpr ⟨hs,hve⟩
    · rw [map_cons,map_cons,hp]

lemma tally_of_authentic (hc : ∀ v ∈ votes, check v = a.voteCredentials c.blake2s v)
    (ha : ∀ v ∈ votes, a.Authentic c.blake2s c.toVerifier v)
    (hbo : (votes.map fun v => a.power v.voter).sum < 2 ^ 128)
    (hq : a.quorum ≤ (votes.map fun v => a.power v.voter).sum) :
    a.tally c.toVerifier check votes = .ok () := by
  obtain ⟨batch,hb,hv,hp⟩ := hoist_of_authentic hc ha
  have hz : 0 + (batch.map Prod.fst).sum < 2 ^ 128 := by rwa [Nat.zero_add,hp]
  have hs : sumPowers (batch.map Prod.fst) = .ok (votes.map fun v => a.power v.voter).sum := by
    rw [sumPowers,foldlM_checkedAdd _ hz,Nat.zero_add,hp]
  simp only [AuthenticatedCommittee.tally,settle,hb,ensure_of (firstDigestFailure_none.mpr hv),
    ok_bind,rejectWith,hs,ensure_of hq]

lemma sum_filter_map {α : Type} {p : α → Prop} [DecidablePred p] {f : α → Nat} {l : List α} :
    ((l.filter (p ·)).map f).sum = (l.map fun x => if p x then f x else 0).sum := by
  induction l with
  | nil => rfl
  | cons x rest ih =>
    rw [filter_cons,map_cons,sum_cons]
    by_cases hx : p x
    · simp [hx,ih]
    · simp [hx,ih]

end Tally

namespace BftFinalityEngine

inductive Call where
  | receive (vote : Vote)
  | advance

def call (c : Suite) (e : BftFinalityEngine) : Call → BftFinalityEngine
  | .receive vote => (e.receiveVote c vote).2
  | .advance => e.advanceRound.2

variable {c : Suite} {e : BftFinalityEngine} {vote : Vote} {phase : VotePhase}
  {block : Option Hash256} {com : Committee}

/-- What the collector keeps: authentic votes of the round under their own keys, the power of each
value, a certificate that verifies, and evidence that does. -/
structure Collected (c : Suite) (e : BftFinalityEngine) : Prop where
  key : ∀ k v, e.votes.get k = some v → k = v.key
  round : ∀ k v, e.votes.get k = some v → v.round = e.round
  authentic : ∀ k v, e.votes.get k = some v → e.context.Authentic c.blake2s c.toVerifier v
  power : ∀ phase block, e.power phase block =
    ((e.supporters phase block).map fun v => e.context.power v.voter).sum
  certificate : ∀ certificate header, e.certificate = some certificate →
    header.computeHash c.blake2s = certificate.block → header.height = e.context.height →
    header.committeeRoot = e.context.root →
    e.context.verifyCertificate c.blake2s c.toVerifier certificate header = .ok ()
  evidence : ∀ voter proof, e.evidence.get voter = some proof →
    proof.voter = voter ∧ proof.verify c e.context = .ok ()

namespace Collected

lemma mem_supporters (h : Collected c e) {v : Vote} : v ∈ e.supporters phase block ↔
    e.votes.get v.key = some v ∧ v.phase = phase ∧ v.block = block := by
  simp only [supporters,mem_filter,mem_map,decide_eq_true_eq]
  constructor
  · rintro ⟨⟨⟨k,v⟩,hm,rfl⟩,hv⟩
    have hg := OrderedMap.get_eq_some_iff.mpr hm
    exact ⟨h.key k v hg ▸ hg,hv⟩
  · rintro ⟨hg,hv⟩
    exact ⟨⟨_,OrderedMap.get_eq_some_iff.mp hg,rfl⟩,hv⟩

lemma ascending_supporters (h : Collected c e) :
    ((e.supporters phase block).map (·.voter)).Pairwise (· < ·) := by
  have hk : (e.votes.entries.map Prod.snd).Pairwise fun v w => v.key < w.key := by
    refine pairwise_map.mpr (e.votes.sorted.imp_of_mem fun {x y} hx hy hlt => ?_)
    rwa [← h.key x.1 x.2 (OrderedMap.get_eq_some_iff.mpr hx),
      ← h.key y.1 y.2 (OrderedMap.get_eq_some_iff.mpr hy)]
  refine pairwise_map.mpr ((List.Pairwise.filter _ hk).imp_of_mem fun {v w} hv hw hlt => ?_)
  have hp : v.phase = w.phase := by
    have hv := (mem_filter.mp hv).2
    have hw := (mem_filter.mp hw).2
    simp only [decide_eq_true_eq] at hv hw
    exact hv.1.trans hw.1.symm
  rcases Prod.Lex.toLex_lt_toLex.mp hlt with hvo | ⟨_,hl⟩
  · exact hvo
  · exact absurd hl (by simp [hp])

lemma distinct (h : Collected c e) (phase : VotePhase) (block : Option Hash256) :
    ((e.supporters phase block).map (·.voter)).Nodup :=
  h.ascending_supporters.imp fun hl => hl.ne

lemma supporter_authentic (h : Collected c e) {v : Vote} (hv : v ∈ e.supporters phase block) :
    e.context.Authentic c.blake2s c.toVerifier v :=
  h.authentic _ v (h.mem_supporters.mp hv).1

lemma power_le (h : Collected c e) (hs : e.context.Seats c.blake2s com) :
    e.power phase block ≤ e.context.total := by
  have hl := hs.sum_power_le (h.distinct phase block) fun v hv => by
    obtain ⟨vote,hvo,rfl⟩ := mem_map.mp hv
    exact (h.supporter_authentic hvo).member
  rw [map_map] at hl
  rw [h.power]
  exact hl

lemma total_lt (h : Collected c e) (hs : e.context.Seats c.blake2s com) :
    ((e.supporters phase block).map fun v => e.context.power v.voter).sum < 2 ^ 128 := by
  rw [← h.power]
  exact (h.power_le hs).trans_lt hs.weighed.bounded

lemma supporters_ne_nil (hq : e.context.quorum ≤
    ((e.supporters phase block).map fun v => e.context.power v.voter).sum) :
    e.supporters phase block ≠ [] := by
  intro hn
  rw [hn] at hq
  exact absurd hq (Nat.not_le.mpr (Nat.succ_pos _))

lemma length_le (h : Collected c e) :
    (e.supporters phase block).length ≤ e.context.powers.length := by
  have hs : ((e.supporters phase block).map (·.voter)) ⊆ e.context.powers.map Prod.fst := by
    intro v hv
    obtain ⟨vote,hvo,rfl⟩ := mem_map.mp hv
    obtain ⟨en,he,hi⟩ := lookup_isSome_iff.mp (h.supporter_authentic hvo).member
    exact mem_map.mpr ⟨en,he,(beq_iff_eq.mp hi).symm⟩
  simpa only [length_map] using (Nodup.subperm (h.distinct phase block) hs).length_le

lemma length_le_max (h : Collected c e) (hs : e.context.Seats c.blake2s com) :
    (e.supporters phase block).length ≤ maxCommitteeMembers := by
  refine h.length_le.trans ?_
  rw [hs.powers,Committee.powers,length_map]
  exact hs.count

variable {value : Hash256} {prev : Vote}

lemma certificateOf_verifies (h : Collected c e) (hs : e.context.Seats c.blake2s com)
    {hdr : BlockHeader} (hq : e.context.quorum ≤ e.power .precommit (some value))
    (hh : hdr.computeHash c.blake2s = value) (hhe : hdr.height = e.context.height)
    (hr : hdr.committeeRoot = e.context.root) :
    e.context.verifyCertificate c.blake2s c.toVerifier (e.certificateOf value) hdr = .ok () := by
  rw [h.power] at hq
  have hvo : (e.certificateOf value).signatures.map (·.voter) =
      (e.supporters .precommit (some value)).map (·.voter) := map_map
  have hl : (e.certificateOf value).signatures.length =
      (e.supporters .precommit (some value)).length := length_map _
  -- An entry of the certificate stands for the very vote it was taken from.
  have hvot : (e.certificateOf value).signatures.map (e.certificateOf value).vote =
      e.supporters .precommit (some value) := by
    refine map_map.trans ((map_congr_left fun v hv => ?_).trans (map_id _))
    obtain ⟨hg,hp,hb⟩ := h.mem_supporters.mp hv
    have ha := h.supporter_authentic hv
    have hro := h.round _ v hg
    cases v
    simp only [certificateOf,comp_apply,FinalityCertificate.vote,id,Vote.mk.injEq] at *
    exact ⟨ha.chain.symm,ha.root.symm,ha.height.symm,hro.symm, hp.symm,hb.symm,trivial,trivial⟩
  have hsh : (e.certificateOf value).validateShape = .ok () := by
    rw [FinalityCertificate.validateShape,ensure_of,ok_bind,ensure_of]
    · rw [hvo]
      exact ascending_iff.mpr h.ascending_supporters
    · refine ⟨fun hn => supporters_ne_nil hq ?_,hl.trans_le (h.length_le_max hs)⟩
      rwa [← length_eq_zero_iff,← hl,length_eq_zero_iff]
  rw [AuthenticatedCommittee.verifyCertificate,hsh,failAs_ok,ok_bind,ensure_of,ok_bind,hvot]
  · exact tally_of_authentic (fun _ _ => rfl) (fun v hv => h.supporter_authentic hv) (h.total_lt hs) hq
  · exact ⟨hhe,hr,rfl,rfl,rfl,hh.symm,hl.trans_le h.length_le⟩

lemma prevoteCertificate_iff (h : Collected c e) (hs : e.context.Seats c.blake2s com) :
    (∃ cert, e.prevoteCertificate c value = .ok cert) ↔
      e.context.quorum ≤ e.power .prevote (some value) := by
  rw [h.power]
  constructor
  · rintro ⟨cert,hce⟩
    unfold prevoteCertificate PrevoteCertificate.fromVotes at hce
    split at hce
    · cases hce
    · simp only [bind_eq_ok] at hce
      obtain ⟨_,_,_,_,_,ht,_⟩ := hce
      exact (AuthenticatedCommittee.tally_ok
        (fun vote en hc => (bind_eq_ok.mp hc).choose_spec.2) ht).2.2
  · intro hq
    have hn := supporters_ne_nil hq
    have hh := h.mem_supporters.mp (head_mem hn)
    have hsh : (e.supporters .prevote (some value)).length ≤ maxCommitteeMembers ∧
        ascending ((e.supporters .prevote (some value)).map (·.voter)) = true :=
      ⟨h.length_le_max hs,ascending_iff.mpr h.ascending_supporters⟩
    have hb : ((e.supporters .prevote (some value)).head hn).block.isSome = true := by
      rw [hh.2.2]
      rfl
    have hch : ∀ v ∈ e.supporters .prevote (some value), e.context.prevoteCredentials c.blake2s
        ((e.supporters .prevote (some value)).head hn) v = e.context.voteCredentials c.blake2s v := by
      intro v hv
      obtain ⟨hg,hp,hb⟩ := h.mem_supporters.mp hv
      rw [AuthenticatedCommittee.prevoteCredentials,ensure_of,ok_bind]
      exact ⟨hp,(h.round _ v hg).trans (h.round _ _ hh.1).symm,hb.trans hh.2.2.symm⟩
    refine ⟨⟨_,hn⟩,?_⟩
    rw [prevoteCertificate,PrevoteCertificate.fromVotes,dif_neg hn,ensure_of hsh,ok_bind,
      ensure_of hb,ok_bind,tally_of_authentic hch (fun v hv => h.supporter_authentic hv)
        (h.total_lt hs) hq]
    rfl

lemma prevoteCertificate_context {cert : PrevoteCertificate}
    (hc : e.prevoteCertificate c value = .ok cert) :
    cert.verifyContext e.context = .ok () := by
  obtain ⟨_,_,ha⟩ := AuthenticatedCommittee.fromVotes_ok hc
  have hf := (ha cert.first (head_mem cert.nonempty)).1
  exact ensure_of ⟨hf.chain,hf.height,hf.root⟩

lemma verifyVote_error {a : AuthenticatedCommittee} {why : ConsensusError}
    (h : a.verifyVote c vote = .error why) : why ≠ .invalidCommittee := by
  unfold AuthenticatedCommittee.verifyVote AuthenticatedCommittee.voteCredentials at h
  rintro rfl
  cases hs : ensure ConsensusError.invalidTransition (vote.chainId = a.chainId ∧
      vote.height = a.height ∧ vote.committeeRoot = a.root) with
  | error _ =>
    rw [hs,error_bind,error_bind,Except.error.injEq] at h
    rw [h,ensure_eq_error] at hs
    exact absurd hs.2 (by simp)
  | ok _ =>
    rw [hs,ok_bind] at h
    cases hp : a.votingPower vote.voter with
    | none => rw [hp] at h; cases h
    | some power =>
      cases hk : a.registeredKey vote.voter with
      | none => rw [hp,hk] at h; cases h
      | some key =>
        rw [hp,hk] at h
        simp only [okOr,ok_bind,pure_eq_ok] at h
        unfold ensure at h
        split at h <;> cases h

lemma forRound (c : Suite) (a : AuthenticatedCommittee) (round : UInt32) :
    Collected c (forRound a round) where
  key := by simp [BftFinalityEngine.forRound]
  round := by simp [BftFinalityEngine.forRound]
  authentic := by simp [BftFinalityEngine.forRound]
  power := by simp [BftFinalityEngine.forRound,supporters,OrderedMap.empty]
  certificate := by simp [BftFinalityEngine.forRound]
  evidence := by simp [BftFinalityEngine.forRound]

lemma sum_supporters (e : BftFinalityEngine) (phase : VotePhase) (block : Option Hash256) :
    ((e.supporters phase block).map fun v => e.context.power v.voter).sum =
      e.votes.total fun _ v => if v.phase = phase ∧ v.block = block then e.context.power v.voter else 0 := by
  rw [supporters,sum_filter_map,map_map]
  rfl

lemma store (h : Collected c e) (hr : vote.round = e.round)
    (ha : e.context.Authentic c.blake2s c.toVerifier vote)
    (hn : e.votes.get vote.key = none) (ho : e.certificate = none) :
    Collected c (e.store vote (e.power vote.phase vote.block + e.context.power vote.voter)) where
  key k v hg := by
    rw [BftFinalityEngine.store,OrderedMap.get_insert] at hg
    split at hg
    · next hk => exact Option.some.inj hg ▸ hk
    · exact h.key k v hg
  round k v hg := by
    rw [BftFinalityEngine.store,OrderedMap.get_insert] at hg
    split at hg
    · exact Option.some.inj hg ▸ hr
    · exact h.round k v hg
  authentic k v hg := by
    rw [BftFinalityEngine.store,OrderedMap.get_insert] at hg
    split at hg
    · exact Option.some.inj hg ▸ ha
    · exact h.authentic k v hg
  power phase block := by
    rw [sum_supporters]
    have ht := e.votes.total_insert (fun _ v =>
      if v.phase = phase ∧ v.block = block then e.context.power v.voter else 0) vote.key vote
    rw [hn,Option.elim_none,Nat.add_zero,← sum_supporters,← h.power] at ht
    refine Eq.trans ?_ ht
    simp only [BftFinalityEngine.store]
    by_cases hp : phase = vote.phase
    · subst hp
      rw [update_self]
      by_cases hb : block = vote.block
      · subst hb
        rw [update_self,if_pos ⟨rfl,rfl⟩]
      · rw [update_of_ne hb,if_neg fun hs => hb hs.2.symm,Nat.add_zero]
    · rw [update_of_ne hp,if_neg fun hs => hp hs.1.symm,Nat.add_zero]
  certificate certificate header hc := by
    have hno : e.certificate = some certificate := hc
    rw [ho] at hno
    cases hno
  evidence := h.evidence

lemma certify (h : Collected c e) (hs : e.context.Seats c.blake2s com) :
    Collected c (e.certify vote (e.power vote.phase vote.block)) := by
  unfold BftFinalityEngine.certify
  split
  · exact h
  · next value hb =>
    split
    · next hq =>
      obtain ⟨hp,hq⟩ := hq
      rw [hp,hb] at hq
      refine ⟨h.key,h.round,h.authentic,h.power,?_,h.evidence⟩
      intro cert hdr hc hh hhe hr
      cases hc
      exact h.certificateOf_verifies hs hq hh hhe hr
    · exact h

lemma same_slot (h : Collected c e) (hpr : e.votes.get vote.key = some prev)
    (hr : vote.round = e.round) (ha : e.context.Authentic c.blake2s c.toVerifier vote) :
    DoubleVoteEvidence.Slot prev vote := by
  have hk : (vote.voter,vote.phase) = (prev.voter,prev.phase) := toLex.injective (h.key _ _ hpr)
  have hb := h.authentic _ _ hpr
  obtain ⟨hv,hp⟩ := Prod.mk.inj hk
  exact ⟨hb.chain.trans ha.chain.symm,hb.height.trans ha.height.symm,
    hb.root.trans ha.root.symm,(h.round _ _ hpr).trans hr.symm,hp.symm,
    hv.symm⟩

lemma receiveAgain (h : Collected c e)
    (hp : e.votes.get vote.key = some prev) (hr : vote.round = e.round)
    (ha : e.context.Authentic c.blake2s c.toVerifier vote) :
    Collected c (e.receiveAgain c prev vote).2 ∧
      ((e.receiveAgain c prev vote).1 = .error .duplicateVote ∨
        (e.receiveAgain c prev vote).1 = .error .equivocation) := by
  unfold BftFinalityEngine.receiveAgain
  split
  · exact ⟨h,.inl rfl⟩
  · next hb =>
    split
    · exact ⟨h,.inr rfl⟩
    · have hsl := h.same_slot hp hr ha
      obtain ⟨pf,hpr,_,hv⟩ := DoubleVoteEvidence.fromVotes_of_conflict hsl hb (h.authentic _ _ hp) ha
      have hvo : pf.voter = vote.voter := by
        simp only [DoubleVoteEvidence.fromVotes,bind_eq_ok,pure_ok_iff] at hpr
        obtain ⟨_,_,rfl⟩ := hpr
        split
        · exact hsl.voter
        · rfl
      rw [hpr]
      refine ⟨⟨h.key,h.round,h.authentic,h.power,h.certificate,fun voter other ho => ?_⟩,.inr rfl⟩
      rw [OrderedMap.get_insert] at ho
      split at ho
      · next hs =>
        cases ho
        exact ⟨hvo.trans hs.symm,hv⟩
      · exact h.evidence voter other ho

lemma receiveVote (h : Collected c e) (hs : e.context.Seats c.blake2s com) (vote : Vote) :
    Collected c (e.receiveVote c vote).2 ∧ (e.receiveVote c vote).1 ≠ .error .invalidCommittee := by
  unfold BftFinalityEngine.receiveVote
  split
  · exact ⟨h,by simp⟩
  next hro =>
  have hro : vote.round = e.round := not_not.mp hro
  split
  · next why hw =>
    refine ⟨h,?_⟩
    rintro hco
    cases hco
    exact verifyVote_error hw rfl
  next power hp =>
  obtain ⟨hau,rfl⟩ := AuthenticatedCommittee.verifyVote_eq_ok.mp hp
  split
  · next prev hpr =>
    obtain ⟨hk,hr⟩ := h.receiveAgain hpr hro hau
    refine ⟨hk,?_⟩
    rcases hr with hr | hr <;> rw [hr] <;> simp
  next hn =>
  split
  · exact ⟨h,by simp⟩
  next ho =>
  have ho : e.certificate = none := Option.not_isSome_iff_eq_none.mp ho
  have hst := h.store hro hau hn ho
  -- The sum is the power of distinct members, so the checked addition succeeds.
  have hk : (e.store vote (e.power vote.phase vote.block + e.context.power vote.voter)).power
      vote.phase vote.block = e.power vote.phase vote.block + e.context.power vote.voter := by
    simp [BftFinalityEngine.store]
  have hl : (e.store vote (e.power vote.phase vote.block + e.context.power vote.voter)).power
      vote.phase vote.block ≤ e.context.total := hst.power_le hs
  rw [hk] at hl
  have ha : checkedAdd128 (e.power vote.phase vote.block) (e.context.power vote.voter) =
      some (e.power vote.phase vote.block + e.context.power vote.voter) :=
    if_pos (hl.trans_lt hs.weighed.bounded)
  rw [ha]
  have hc := @certify c _ vote _ hst hs
  rw [hk] at hc
  exact ⟨hc,by simp⟩

lemma advanceRound (h : Collected c e) : Collected c e.advanceRound.2 := by
  unfold BftFinalityEngine.advanceRound
  split
  · exact h
  next ho =>
  split
  · refine ⟨by simp,by simp,by simp,?_,h.certificate,h.evidence⟩
    simp [supporters,OrderedMap.empty]
  · exact h

lemma call (h : Collected c e) (hs : e.context.Seats c.blake2s com) (x : Call) :
    Collected c (e.call c x) := by
  cases x with
  | receive vote => exact (h.receiveVote hs vote).1
  | advance => exact h.advanceRound

end Collected

lemma context_certify {tot : Nat} : (e.certify vote tot).context = e.context := by
  unfold certify
  split
  · rfl
  · split <;> rfl

lemma context_receiveAgain {prev : Vote} :
    (e.receiveAgain c prev vote).2.context = e.context := by
  unfold receiveAgain
  split
  · rfl
  · split
    · rfl
    · split <;> rfl

lemma context_call (x : Call) : (e.call c x).context = e.context := by
  cases x with
  | receive vote =>
    simp only [call,receiveVote]
    repeat' split
    all_goals first | rfl | exact context_receiveAgain | exact context_certify
  | advance =>
    simp only [call,advanceRound]
    repeat' split
    all_goals rfl

def voters (e : BftFinalityEngine) (phase : VotePhase) (block : Option Hash256) : Finset ValidatorId :=
  ((e.supporters phase block).map (·.voter)).toFinset

lemma Collected.power_eq (h : Collected c e) :
    e.power phase block = ∑ v ∈ e.voters phase block, e.context.power v := by
  rw [h.power,voters,sum_toFinset _ (h.distinct phase block),map_map]
  rfl

end BftFinalityEngine

open BftFinalityEngine in
/-- Whatever votes arrive, the collector counts each voter once, what it certifies verifies, and so
does the evidence it keeps. -/
theorem vote_collection_agrees (c : Suite) (chainId : UInt32) (committee : Committee)
    (keys : List (Fixed 32)) (a : AuthenticatedCommittee)
    (hnew : AuthenticatedCommittee.new c.blake2s c.toVerifier chainId committee keys = .ok a)
    (round : UInt32) (calls : List BftFinalityEngine.Call) (e : BftFinalityEngine)
    (he : e = runs (call c) (forRound a round) calls) :
    (∀ phase block, e.power phase block = ∑ v ∈ e.voters phase block, a.power v ∧
      e.power phase block < 2 ^ 128) ∧
    (∀ vote, (e.receiveVote c vote).1 ≠ .error .invalidCommittee) ∧
    (∀ certificate header, e.certificate = some certificate →
      header.computeHash c.blake2s = certificate.block → header.height = a.height →
      header.committeeRoot = a.root →
      a.verifyCertificate c.blake2s c.toVerifier certificate header = .ok ()) ∧
    (∀ block, ((∃ certificate, e.prevoteCertificate c block = .ok certificate) ↔
        a.quorum ≤ ∑ v ∈ e.voters .prevote (some block), a.power v) ∧
      ∀ certificate, e.prevoteCertificate c block = .ok certificate →
        certificate.verifyContext a = .ok ()) ∧
    (∀ entry ∈ e.evidence.entries, entry.2.voter = entry.1 ∧ entry.2.verify c a = .ok ()) ∧
    (e.evidence.entries.map (·.2.voter)).Nodup := by
  obtain ⟨_,hs⟩ := AuthenticatedCommittee.new_ok hnew
  obtain ⟨hc,hco⟩ : Collected c e ∧ e.context = a := by
    rw [he]
    refine @runs_invariant _ _ (call c) (fun e => Collected c e ∧ e.context = a) (fun _ => True)
      ?_ _ _ (fun _ _ => trivial) ⟨.forRound c a round,rfl⟩
    rintro e x _ ⟨h,hco⟩
    exact ⟨h.call (hco.symm ▸ hs) x,(context_call x).trans hco⟩
  subst hco
  refine ⟨fun phase block => ⟨hc.power_eq,
    (hc.power_le hs).trans_lt hs.weighed.bounded⟩,
    fun vote => (hc.receiveVote hs vote).2,hc.certificate,
    fun block => ⟨?_,fun certificate => Collected.prevoteCertificate_context⟩,fun entry hen => ?_,?_⟩
  · rw [hc.prevoteCertificate_iff hs,hc.power_eq]
  · exact hc.evidence entry.1 entry.2 (OrderedMap.get_eq_some_iff.mpr hen)
  · have hk : e.evidence.entries.map (·.2.voter) = e.evidence.entries.map Prod.fst :=
      map_congr_left fun entry hen =>
        (hc.evidence entry.1 entry.2 (OrderedMap.get_eq_some_iff.mpr hen)).1
    rw [hk]
    exact pairwise_map.mpr (e.evidence.sorted.imp fun hl => hl.ne)

open ForkedSeats BftFinalityEngine in
/-- Three of four seats precommit a block, which is certified. The last of them precommits another
one too, which leaves evidence. -/
theorem vote_collection_four_seats : ∃ e certificate entry,
    e = runs (call suite) (forRound context 0)
      (((ForkedSeats.certificate 1 [1, 2, 3]).signatures.map fun s =>
        .receive ((ForkedSeats.certificate 1 []).vote s)) ++
          [.receive ((ForkedSeats.certificate 2 []).vote ⟨TwoSteps.id 3, TwoSteps.signature⟩)]) ∧
    e.certificate = some certificate ∧ entry ∈ e.evidence.entries ∧
    context.verifyCertificate suite.blake2s suite.toVerifier certificate (header 1) = .ok () ∧
    entry.1 = TwoSteps.id 3 ∧ entry.2.verify suite context = .ok () := by
  obtain ⟨e,he⟩ : ∃ e, e = runs (call suite) (forRound context 0)
      (((ForkedSeats.certificate 1 [1,2,3]).signatures.map fun s =>
        .receive ((ForkedSeats.certificate 1 []).vote s)) ++
          [.receive ((ForkedSeats.certificate 2 []).vote ⟨TwoSteps.id 3,TwoSteps.signature⟩)]) :=
    ⟨_,rfl⟩
  have hce : (e.certificate.map (·.block)) = some ((header 1).computeHash residueHash) := by
    rw [he]
    decide +kernel
  have hco : e.evidence.entries.map Prod.fst = [TwoSteps.id 3] := by
    rw [he]
    decide +kernel
  obtain ⟨certificate,hc,hb⟩ := Option.map_eq_some_iff.mp hce
  have hm : TwoSteps.id 3 ∈ e.evidence.entries.map Prod.fst := by
    rw [hco]
    exact mem_singleton_self _
  obtain ⟨entry,hent,hi⟩ := mem_map.mp hm
  have ha := vote_collection_agrees suite 7 committee _ context accepted 0 _ e he
  exact ⟨e,certificate,entry,he,hc,hent,ha.2.2.1 certificate (header 1) hc hb.symm rfl rfl,hi,
    (ha.2.2.2.2.1 entry hent).2⟩

end Astrolune.Consensus
