import Astrolune.Codec.Exact
import Astrolune.Consensus.Evidence
import Astrolune.Types.Digest

namespace Astrolune.Consensus
open Lib Codec Crypto Decoder Reader List

def VotePhase.decode (byte : UInt8) : Except DecodeError VotePhase :=
  if byte = 0 then .ok .prevote
  else if byte = 1 then .ok .precommit
  else .error .unsupported

/-- A block or nil, by its tag. The bytes of nil are zero. -/
def presentBlock (present : UInt8) (hash : Hash256) : Except DecodeError (Option Hash256) :=
  if present = 0 ∧ hash = Hash256.zero then .ok none
  else if present = 1 then .ok (some hash)
  else .error .nonCanonical

namespace Vote

def read : Decoder Vote := do
  let magic ← readFixed 4
  check .unsupported (magic.1 = ascii "ALVT")
  let version ← readU32
  check .unsupported (version = 1)
  let chainId ← readU32
  let height ← readU64
  let round ← readU32
  let tag ← readU8
  let phase ← give (VotePhase.decode tag)
  let present ← readU8
  let hash ← readFixed 32
  let block ← give (presentBlock present hash)
  let committeeRoot ← readFixed 32
  let voter ← readFixed 32
  let signature ← readFixed 64
  return { chainId, committeeRoot, height, round, phase, block, voter, signature }

def decode (bytes : Bytes) : Except DecodeError Vote := whole read bytes

end Vote

lemma VotePhase.decode_eq_ok {byte : UInt8} {phase : VotePhase} :
    VotePhase.decode byte = .ok phase ↔ byte = phase.byte := by
  constructor
  · intro h
    unfold VotePhase.decode at h
    split_ifs at h with h0 h1
    · cases h
      exact h0
    · cases h
      exact h1
  · rintro rfl
    cases phase <;> rfl

lemma presentBlock_eq_ok {present : UInt8} {hash : Hash256} {block : Option Hash256} :
    presentBlock present hash = .ok block ↔ [present] ++ hash.1 = blockBytes block := by
  constructor
  · intro h
    unfold presentBlock at h
    split_ifs at h with h0 h1
    · cases h
      rw [h0.1,h0.2,blockBytes]
    · cases h
      rw [h1,blockBytes]
  · intro h
    cases block with
    | none =>
      obtain ⟨ht,hh⟩ := append_inj h rfl
      rw [singleton_inj.mp ht,Subtype.ext hh]
      rfl
    | some block =>
      obtain ⟨ht,hh⟩ := append_inj h rfl
      rw [singleton_inj.mp ht,Subtype.ext hh]
      rfl

lemma Vote.exact : Exact Vote.read Vote.encode fun _ => True := by
  refine Exact.of (fun v _ => ?_) fun bs v rest h => ⟨trivial,?_⟩
  · have hb : ∃ present, ∃ hash : Hash256, blockBytes v.block = [present] ++ hash.1 := by
      cases v.block with
      | none => exact ⟨0,Hash256.zero,rfl⟩
      | some block => exact ⟨1,block,rfl⟩
    obtain ⟨present,hash,hb⟩ := hb
    rw [Vote.encode,Vote.signingBytes,hb]
    simp only [append_assoc]
    have hm : (ascii "ALVT").length = 4 := by decide
    exact (Reads.readFixed ⟨ascii "ALVT",hm⟩).bind (Reads.after rfl ((Reads.readU32 1).bind
      (Reads.after rfl ((Reads.readU32 _).bind ((Reads.readU64 _).bind ((Reads.readU32 _).bind
        ((Reads.readU8 _).bind ((Reads.give (VotePhase.decode_eq_ok.mpr rfl)).bind_nil
          ((Reads.readU8 _).bind ((Reads.readFixed _).bind
            ((Reads.give (presentBlock_eq_ok.mpr hb.symm)).bind_nil
              ((Reads.readFixed _).bind ((Reads.readFixed _).bind (Reads.readFixed _).bind_pure)))))))))))))
  · simp only [Vote.read,bind_run_ok,pure_run_ok,check_run_ok,
      give_run_ok,readFixed_run_ok,readU32_run_ok,readU64_run_ok,
      readU8_run_ok,VotePhase.decode_eq_ok,presentBlock_eq_ok] at h
    obtain ⟨magic,_,rfl,_,_,⟨hm,rfl⟩,_,_,rfl,_,_,⟨rfl,rfl⟩,chainId,_,rfl,height,_,
      rfl,round,_,rfl,_,_,rfl,phase,_,⟨rfl,rfl⟩,present,_,rfl,hash,_,rfl,block,_,
      ⟨hb,rfl⟩,committeeRoot,_,rfl,voter,_,rfl,signature,_,rfl,rfl,rfl⟩ := h
    simp only [Vote.encode,Vote.signingBytes,hm,← hb,append_assoc]

def claimedRound (flag : UInt8) (value round : UInt32) : Except DecodeError (Option UInt32) :=
  if flag = 0 ∧ value = 0 then .ok none
  else if flag = 1 ∧ value < round then .ok (some value)
  else .error .nonCanonical

namespace Proposal

def encode (p : Proposal) : Bytes := p.signingBytes ++ p.signature.1

def read : Decoder Proposal := do
  let magic ← readFixed 4
  check .unsupported (magic.1 = ascii "ALPR")
  let version ← readU32
  check .unsupported (version = 1)
  let chainId ← readU32
  let genesis ← readFixed 32
  let height ← readU64
  let round ← readU32
  let committeeRoot ← readFixed 32
  let block ← readFixed 32
  let proposer ← readFixed 32
  let flag ← readU8
  let value ← readU32
  let validRound ← give (claimedRound flag value round)
  let signature ← readFixed 64
  return { chainId, genesis, height, round, committeeRoot, block, proposer, validRound, signature }

def decode (bytes : Bytes) : Except DecodeError Proposal := whole read bytes

def WellFormed (p : Proposal) : Prop := ∀ round ∈ p.validRound, round < p.round

end Proposal

lemma claimedRound_eq_ok {flag : UInt8} {value round : UInt32} {claimed : Option UInt32} :
    claimedRound flag value round = .ok claimed ↔
      [flag] ++ u32Bytes value = roundBytes claimed ∧ ∀ r ∈ claimed, r < round := by
  constructor
  · intro h
    unfold claimedRound at h
    split_ifs at h with h0 h1
    · cases h
      refine ⟨?_,by simp⟩
      rw [h0.1,h0.2,roundBytes]
    · cases h
      refine ⟨?_,by simpa using h1.2⟩
      rw [h1.1,roundBytes]
  · rintro ⟨h,hl⟩
    cases claimed with
    | none =>
      obtain ⟨hf,hv⟩ := append_inj h rfl
      rw [singleton_inj.mp hf,u32Bytes_injective hv]
      rfl
    | some r =>
      obtain ⟨hf,hv⟩ := append_inj h rfl
      rw [singleton_inj.mp hf,u32Bytes_injective hv]
      exact (if_neg (by simp)).trans (if_pos ⟨rfl,hl r rfl⟩)

lemma Proposal.exact : Exact Proposal.read Proposal.encode Proposal.WellFormed := by
  refine Exact.of (fun p hp => ?_) fun bs p rest h => ?_
  · have hr : ∃ flag value, roundBytes p.validRound = [flag] ++ u32Bytes value := by
      cases p.validRound with
      | none => exact ⟨0,0,rfl⟩
      | some round => exact ⟨1,round,rfl⟩
    obtain ⟨flag,value,hr⟩ := hr
    have hm : (ascii "ALPR").length = 4 := by decide
    rw [Proposal.encode,Proposal.signingBytes,hr]
    simp only [append_assoc]
    exact (Reads.readFixed ⟨ascii "ALPR",hm⟩).bind (Reads.after rfl ((Reads.readU32 1).bind
      (Reads.after rfl ((Reads.readU32 _).bind ((Reads.readFixed _).bind ((Reads.readU64 _).bind
        ((Reads.readU32 _).bind ((Reads.readFixed _).bind ((Reads.readFixed _).bind
          ((Reads.readFixed _).bind ((Reads.readU8 _).bind ((Reads.readU32 _).bind
            ((Reads.give (claimedRound_eq_ok.mpr ⟨hr.symm,hp⟩)).bind_nil
              (Reads.readFixed _).bind_pure)))))))))))))
  · simp only [Proposal.read,bind_run_ok,pure_run_ok,check_run_ok,
      give_run_ok,readFixed_run_ok,readU32_run_ok,readU64_run_ok,
      readU8_run_ok,claimedRound_eq_ok] at h
    obtain ⟨magic,_,rfl,_,_,⟨hm,rfl⟩,_,_,rfl,_,_,⟨rfl,rfl⟩,chainId,_,rfl,gen,_,
      rfl,height,_,rfl,round,_,rfl,committeeRoot,_,rfl,block,_,rfl,proposer,_,rfl,flag,_,
      rfl,value,_,rfl,validRound,_,⟨⟨hr,hl⟩,rfl⟩,signature,_,rfl,rfl,rfl⟩ := h
    refine ⟨hl,?_⟩
    simp only [Proposal.encode,Proposal.signingBytes,hm,← hr,append_assoc]

namespace FinalityCertificate

def entryBytes (entry : CertificateSignature) : Bytes := entry.voter.1 ++ entry.signature.1

def readEntry : Decoder CertificateSignature := do
  let voter ← readFixed 32
  let signature ← readFixed 64
  return { voter, signature }

def encode (c : FinalityCertificate) : Except DecodeError Bytes := do
  c.validateShape
  ensure .limitExceeded (c.signatures.length < 2 ^ 32)
  return ascii "ALFC" ++ (u32Bytes 1 ++ (u32Bytes c.chainId ++ (u64Bytes c.height ++
    (u32Bytes c.round ++ (c.committeeRoot.1 ++ (c.block.1 ++ (leBytes 4 c.signatures.length ++
      c.signatures.flatMap entryBytes)))))))

def read : Decoder FinalityCertificate := do
  let magic ← readFixed 4
  check .unsupported (magic.1 = ascii "ALFC")
  let version ← readU32
  check .unsupported (version = 1)
  let chainId ← readU32
  let height ← readU64
  let round ← readU32
  let committeeRoot ← readFixed 32
  let block ← readFixed 32
  let count ← readU32
  check .limitExceeded (count ≠ 0 ∧ count.toNat ≤ maxCommitteeMembers)
  let remaining ← remaining
  check .nonCanonical (remaining = count.toNat * 96)
  let signatures ← many readEntry count.toNat
  return { chainId, height, round, committeeRoot, block, signatures }

def decode (bytes : Bytes) : Except DecodeError FinalityCertificate := do
  ensure .limitExceeded (bytes.length ≤ 92 + 96 * maxCommitteeMembers)
  let c ← whole read bytes
  c.validateShape
  return c

lemma exact_readEntry : Exact readEntry entryBytes fun _ => True := by
  refine Exact.of (fun en _ => ?_) fun bs en rest h => ⟨trivial,?_⟩
  · exact (Reads.readFixed _).bind (Reads.readFixed _).bind_pure
  · simp only [readEntry,bind_run_ok,pure_run_ok,readFixed_run_ok] at h
    obtain ⟨voter,_,rfl,sig,_,rfl,rfl,rfl⟩ := h
    rw [entryBytes,append_assoc]

lemma entryBytes_length (en : CertificateSignature) : (entryBytes en).length = 96 := by
  rw [entryBytes,length_append,en.voter.2,en.signature.2]

lemma entries_length (es : List CertificateSignature) :
    (es.flatMap entryBytes).length = es.length * 96 :=
  length_flatMap_of fun en _ => entryBytes_length en

lemma shape_of_validate {c : FinalityCertificate} {u : Unit} (h : c.validateShape = .ok u) :
    c.signatures ≠ [] ∧ c.signatures.length ≤ maxCommitteeMembers := by
  obtain ⟨_,hs,-⟩ := bind_eq_ok.mp h
  exact ensure_eq_ok.mp hs

lemma decode_eq_ok {bs : Bytes} {c : FinalityCertificate} :
    decode bs = .ok c ↔ c.encode = .ok bs := by
  simp only [decode,encode,bind_eq_ok,ensure_eq_ok,pure_ok_iff,whole_eq_ok]
  constructor
  · rintro ⟨_,hsi,c,h,_,hs,rfl⟩
    simp only [read,bind_run_ok,pure_run_ok,check_run_ok,
      readFixed_run_ok,readU32_run_ok,readU64_run_ok,
      remaining_run_ok,exact_readEntry.many _ _ _ _] at h
    obtain ⟨magic,_,rfl,_,_,⟨hm,rfl⟩,_,_,rfl,_,_,⟨rfl,rfl⟩,chainId,_,rfl,height,_,
      rfl,round,_,rfl,committeeRoot,_,rfl,block,_,rfl,count,_,rfl,_,_,⟨_,rfl⟩,_,_,
      ⟨rfl,rfl⟩,_,_,⟨_,rfl⟩,signatures,_,⟨⟨hc,-⟩,rfl⟩,rfl,rfl⟩ := h
    refine ⟨(),hs,(),?_,?_⟩
    · rw [hc]
      exact count.toNat_lt
    · simp only [hm,hc,u32Bytes,append_nil]
  · rintro ⟨_,hs,_,hf,rfl⟩
    obtain ⟨hn,hma⟩ := shape_of_validate hs
    have hc : (UInt32.ofNat c.signatures.length).toNat = c.signatures.length :=
      UInt32.toNat_ofNat_of_lt' hf
    have hm : (ascii "ALFC").length = 4 := by decide
    have he := entries_length c.signatures
    have hr : Reads (many readEntry c.signatures.length) (c.signatures.flatMap entryBytes)
        c.signatures := Reads.many fun _ _ => exact_readEntry.reads trivial
    refine ⟨(),?_,c,?_,(),hs,rfl⟩
    · simp only [length_append,u32Bytes_length,u64Bytes_length,hm,c.committeeRoot.2,
        c.block.2,leBytes_length,he]
      omega
    · have hd : leBytes 4 c.signatures.length = u32Bytes (UInt32.ofNat c.signatures.length) := by
        rw [u32Bytes,hc]
      have hp : UInt32.ofNat c.signatures.length ≠ 0 ∧
          (UInt32.ofNat c.signatures.length).toNat ≤ maxCommitteeMembers := by
        refine ⟨fun hz => hn ?_,hc.symm ▸ hma⟩
        rw [hz] at hc
        exact length_eq_zero_iff.mp hc.symm
      have hex : (c.signatures.flatMap entryBytes).length =
          (UInt32.ofNat c.signatures.length).toNat * 96 := by rw [he,hc]
      unfold read
      rw [hd,(Reads.readFixed ⟨ascii "ALFC",hm⟩).run_bind,Reads.run_check rfl,
        (Reads.readU32 _).run_bind,Reads.run_check rfl,(Reads.readU32 _).run_bind,
        (Reads.readU64 _).run_bind,(Reads.readU32 _).run_bind,(Reads.readFixed _).run_bind,
        (Reads.readFixed _).run_bind,(Reads.readU32 _).run_bind,Reads.run_check hp,
        StateT.run_bind,run_remaining,ok_bind,Reads.run_check hex,hc]
      have hl := hr.run_bind (fun signatures => (pure { c with signatures } : Decoder _)) []
      rw [append_nil] at hl
      exact hl

end FinalityCertificate

namespace PrevoteCertificate

def readVote : Decoder Vote := do
  let bytes ← readExact 186
  give (Vote.decode bytes)

def encode (c : PrevoteCertificate) : Bytes :=
  ascii "ALPV" ++ (u32Bytes 1 ++ (leBytes 4 (if c.votes.length < 2 ^ 32 then c.votes.length else 0) ++
    c.votes.flatMap Vote.encode))

def readVotes : Decoder (List Vote) := do
  let magic ← readFixed 4
  check .unsupported (magic.1 = ascii "ALPV")
  let version ← readU32
  check .unsupported (version = 1)
  let count ← readU32
  let remaining ← remaining
  check .limitExceeded
    (count ≠ 0 ∧ count.toNat ≤ maxCommitteeMembers ∧ remaining = 186 * count.toNat)
  many readVote count.toNat

def parse (bytes : Bytes) : Except DecodeError (List Vote) := do
  ensure .limitExceeded (bytes.length ≤ 12 + 186 * maxCommitteeMembers)
  whole readVotes bytes

def decode (H : Hasher) (verifier : Verifier) (a : AuthenticatedCommittee)
    (bytes : Bytes) : Except ConsensusError PrevoteCertificate := do
  let votes ← failAs .invalidCertificate (parse bytes)
  fromVotes H verifier a votes

end PrevoteCertificate

lemma Vote.decode_eq_ok {bs : Bytes} {v : Vote} : Vote.decode bs = .ok v ↔ bs = v.encode :=
  Vote.exact.whole.trans (iff_of_eq (true_and _))

lemma Vote.encode_length (v : Vote) : v.encode.length = 186 := by
  have hm : (ascii "ALVT").length = 4 := by decide
  simp only [Vote.encode,Vote.signingBytes,length_append,hm,u32Bytes_length,
    u64Bytes_length,length_singleton,blockBytes_length,v.committeeRoot.2,v.voter.2,
    v.signature.2]

namespace PrevoteCertificate

lemma exact_readVote : Exact readVote Vote.encode fun _ => True := by
  refine Exact.of (fun v _ => ?_) fun bs v rest h => ⟨trivial,?_⟩
  · exact (Reads.readExact v.encode_length).bind_end (Reads.give (Vote.decode_eq_ok.mpr rfl))
  · simp only [readVote,bind_run_ok,readExact_run_ok,give_run_ok,Vote.decode_eq_ok] at h
    obtain ⟨_,_,⟨_,rfl⟩,rfl,rfl⟩ := h
    rfl

lemma votes_length (votes : List Vote) : (votes.flatMap Vote.encode).length = votes.length * 186 :=
  length_flatMap_of fun v _ => v.encode_length

variable {votes : List Vote} {c : PrevoteCertificate}

lemma parse_eq_ok {bs : Bytes} : parse bs = .ok votes ↔
    votes ≠ [] ∧ votes.length ≤ maxCommitteeMembers ∧
      bs = ascii "ALPV" ++ (u32Bytes 1 ++ (leBytes 4 votes.length ++ votes.flatMap Vote.encode)) := by
  simp only [parse,bind_eq_ok,ensure_eq_ok,whole_eq_ok]
  constructor
  · rintro ⟨_,-,h⟩
    simp only [readVotes,bind_run_ok,check_run_ok,readFixed_run_ok,
      readU32_run_ok,remaining_run_ok,exact_readVote.many _ _ _ _] at h
    obtain ⟨magic,_,rfl,_,_,⟨hm,rfl⟩,_,_,rfl,_,_,⟨rfl,rfl⟩,count,_,rfl,_,_,
      ⟨rfl,rfl⟩,_,_,⟨⟨hn,hma,-⟩,rfl⟩,⟨hco,-⟩,rfl⟩ := h
    refine ⟨?_,hco ▸ hma,?_⟩
    · rintro rfl
      exact hn (UInt32.toNat_inj.mp hco.symm)
    · rw [hm,hco,u32Bytes,u32Bytes,append_nil]
  · rintro ⟨hn,hma,rfl⟩
    have hf : votes.length < 2 ^ 32 := Nat.lt_of_le_of_lt hma (by decide)
    have hco : (UInt32.ofNat votes.length).toNat = votes.length := UInt32.toNat_ofNat_of_lt' hf
    have hm : (ascii "ALPV").length = 4 := by decide
    have hle := votes_length votes
    have hr : Reads (many readVote votes.length) (votes.flatMap Vote.encode) votes :=
      Reads.many fun _ _ => exact_readVote.reads trivial
    have hd : leBytes 4 votes.length = u32Bytes (UInt32.ofNat votes.length) := by
      rw [u32Bytes,hco]
    have hc : UInt32.ofNat votes.length ≠ 0 ∧ (UInt32.ofNat votes.length).toNat ≤ maxCommitteeMembers ∧
        (votes.flatMap Vote.encode).length = 186 * (UInt32.ofNat votes.length).toNat := by
      refine ⟨fun hz => hn ?_,hco.symm ▸ hma,by rw [hle,hco,Nat.mul_comm]⟩
      rw [hz] at hco
      exact length_eq_zero_iff.mp hco.symm
    refine ⟨(),?_,?_⟩
    · simp only [length_append,hm,u32Bytes_length,leBytes_length,hle]
      omega
    · unfold readVotes
      rw [hd,(Reads.readFixed ⟨ascii "ALPV",hm⟩).run_bind,Reads.run_check rfl,
        (Reads.readU32 _).run_bind,Reads.run_check rfl,(Reads.readU32 _).run_bind,StateT.run_bind,
        run_remaining,ok_bind,Reads.run_check hc,hco]
      have hl := hr []
      rwa [append_nil] at hl

variable {H : Hasher} {ver : Verifier} {a : AuthenticatedCommittee}

lemma shape_of_fromVotes (h : fromVotes H ver a votes = .ok c) :
    c.votes = votes ∧ votes ≠ [] ∧ votes.length ≤ maxCommitteeMembers := by
  unfold fromVotes at h
  split at h
  · cases h
  · next hn =>
    obtain ⟨_,hs,h⟩ := bind_eq_ok.mp h
    obtain ⟨_,-,h⟩ := bind_eq_ok.mp h
    obtain ⟨_,-,h⟩ := bind_eq_ok.mp h
    cases h
    exact ⟨rfl,hn,(ensure_eq_ok.mp hs).1⟩

lemma decode_eq_ok {bs : Bytes} :
    decode H ver a bs = .ok c ↔ fromVotes H ver a c.votes = .ok c ∧ bs = c.encode := by
  have he : ∀ c : PrevoteCertificate, c.votes.length ≤ maxCommitteeMembers → c.encode =
      ascii "ALPV" ++ (u32Bytes 1 ++ (leBytes 4 c.votes.length ++ c.votes.flatMap Vote.encode)) := by
    intro c hm
    rw [encode,if_pos (Nat.lt_of_le_of_lt hm (by decide))]
  constructor
  · intro h
    obtain ⟨votes,hp,hv⟩ := bind_eq_ok.mp h
    obtain ⟨-,hm,rfl⟩ := parse_eq_ok.mp (failAs_eq_ok.mp hp)
    obtain ⟨rfl,-⟩ := shape_of_fromVotes hv
    exact ⟨hv,(he c hm).symm⟩
  · rintro ⟨h,rfl⟩
    obtain ⟨-,hn,hm⟩ := shape_of_fromVotes h
    have hp : parse c.encode = .ok c.votes := parse_eq_ok.mpr ⟨hn,hm,he c hm⟩
    rw [decode,hp,failAs_ok,ok_bind,h]

end PrevoteCertificate

namespace DoubleVoteEvidence

def encodedLen : Nat := 380

def decode (bytes : Bytes) : Except DecodeError DoubleVoteEvidence := do
  ensure .nonCanonical (bytes.length = encodedLen)
  ensure .unsupported (bytes.take 8 = ascii "ALDV" ++ [1, 0, 0, 0])
  let first ← Vote.decode ((bytes.drop 8).take 186)
  let second ← Vote.decode (bytes.drop 194)
  ensure .nonCanonical (DoubleVoteEvidence.sameSlot { first, second })
  return { first, second }

lemma decode_eq_ok {bs : Bytes} {e : DoubleVoteEvidence} :
    decode bs = .ok e ↔ e.sameSlot ∧ bs = e.encode := by
  have hm : ascii "ALDV" ++ [1,0,0,0] = ascii "ALDV" ++ u32Bytes 1 := by decide
  simp only [decode,bind_eq_ok,ensure_eq_ok,pure_ok_iff,Vote.decode_eq_ok,hm]
  constructor
  · rintro ⟨_,-,_,ht,first,hf,second,hs,_,hsl,rfl⟩
    have hr : bs.drop 194 = (bs.drop 8).drop 186 := by rw [drop_drop]
    have hc : bs = bs.take 8 ++ ((bs.drop 8).take 186 ++ bs.drop 194) := by
      rw [hr,take_append_drop,take_append_drop]
    refine ⟨hsl,hc.trans ?_⟩
    rw [ht,hf,hs,encode,append_assoc]
  · rintro ⟨hsl,rfl⟩
    have ht : (ascii "ALDV" ++ u32Bytes 1).length = 8 := by decide
    have hc : e.encode = (ascii "ALDV" ++ u32Bytes 1) ++ (e.first.encode ++ e.second.encode) := by
      rw [encode,append_assoc]
    have hc' : e.encode = ((ascii "ALDV" ++ u32Bytes 1) ++ e.first.encode) ++ e.second.encode := by
      rw [hc,append_assoc _ e.first.encode]
    refine ⟨(),?_,(),?_,e.first,?_,e.second,?_,(),hsl,rfl⟩
    · rw [hc',length_append,length_append,ht,Vote.encode_length,Vote.encode_length,encodedLen]
    · rw [hc,take_left' ht]
    · rw [hc,drop_left' ht,take_left' e.first.encode_length]
    · rw [hc',drop_left']
      rw [length_append,ht,Vote.encode_length]

end DoubleVoteEvidence

lemma roundBytes_injective {a b : Option UInt32} (h : roundBytes a = roundBytes b) : a = b := by
  cases a <;> cases b
  case none.none => rfl
  case some.some a b =>
    obtain ⟨_,h⟩ := append_inj h rfl
    rw [u32Bytes_injective h]
  all_goals
    obtain ⟨h,_⟩ := append_inj h rfl
    cases h

lemma Proposal.signingBytes_injective {p q : Proposal} (h : p.signingBytes = q.signingBytes) :
    p = { q with signature := p.signature } := by
  obtain ⟨_,h⟩ := append_inj h rfl
  obtain ⟨_,h⟩ := append_inj h rfl
  obtain ⟨hc,h⟩ := append_inj h (by simp)
  obtain ⟨hg,h⟩ := append_inj h (p.genesis.2.trans q.genesis.2.symm)
  obtain ⟨hh,h⟩ := append_inj h (by simp)
  obtain ⟨hro,h⟩ := append_inj h (by simp)
  obtain ⟨hr,h⟩ := append_inj h (p.committeeRoot.2.trans q.committeeRoot.2.symm)
  obtain ⟨hb,h⟩ := append_inj h (p.block.2.trans q.block.2.symm)
  obtain ⟨hp,hv⟩ := append_inj h (p.proposer.2.trans q.proposer.2.symm)
  rcases p with ⟨_,_,_,_,_,_,_,_,_⟩
  rw [Proposal.mk.injEq]
  exact ⟨u32Bytes_injective hc,Subtype.ext hg,u64Bytes_injective hh,
    u32Bytes_injective hro,Subtype.ext hr,Subtype.ext hb,Subtype.ext hp,
    roundBytes_injective hv,rfl⟩

lemma Vote.signingBytes_ne (v : Vote) (p : Proposal) : v.signingBytes ≠ p.signingBytes := by
  intro h
  have hl : (ascii "ALVT").length = (ascii "ALPR").length := by decide
  have ht : ascii "ALVT" ≠ ascii "ALPR" := by decide
  exact ht (append_inj h hl).1

/-- Each format decodes exactly what it encodes, what is signed determines all that a vote or
proposal says, and no vote is signed as a proposal. -/
theorem consensus_formats_canonical (H : Hasher) (verifier : Verifier)
    (a : AuthenticatedCommittee) :
    (∀ bytes v, Vote.decode bytes = .ok v ↔ bytes = v.encode) ∧
    (∀ bytes p, Proposal.decode bytes = .ok p ↔ p.WellFormed ∧ bytes = p.encode) ∧
    (∀ bytes c, FinalityCertificate.decode bytes = .ok c ↔ c.encode = .ok bytes) ∧
    (∀ bytes c, PrevoteCertificate.decode H verifier a bytes = .ok c ↔
      PrevoteCertificate.fromVotes H verifier a c.votes = .ok c ∧ bytes = c.encode) ∧
    (∀ bytes e, DoubleVoteEvidence.decode bytes = .ok e ↔ e.sameSlot ∧ bytes = e.encode) ∧
    (∀ v w : Vote, v.signingBytes = w.signingBytes → v = { w with signature := v.signature }) ∧
    (∀ p q : Proposal, p.signingBytes = q.signingBytes → p = { q with signature := p.signature }) ∧
    (∀ (v : Vote) (p : Proposal), v.signingBytes ≠ p.signingBytes ∧
      domainInput (ascii "astrolune.vote.v1") v.signingBytes ≠
        domainInput (ascii "astrolune.proposal.v1") p.signingBytes) := by
  refine ⟨fun _ _ => Vote.decode_eq_ok,fun _ _ => Proposal.exact.whole,
    fun _ _ => FinalityCertificate.decode_eq_ok,fun _ _ => PrevoteCertificate.decode_eq_ok,
    fun _ _ => DoubleVoteEvidence.decode_eq_ok,fun _ _ => Vote.signingBytes_injective,
    fun _ _ => Proposal.signingBytes_injective,fun v p => ⟨v.signingBytes_ne p,fun h => ?_⟩⟩
  exact absurd (domainInput_injective (by decide) (by decide) h).1 (by decide)

end Astrolune.Consensus
