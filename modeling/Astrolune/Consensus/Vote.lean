import Astrolune.Keystore.Durable
import Astrolune.Consensus.Committee

namespace Astrolune.Consensus
open Lib Codec Keystore List

inductive VotePhase where
  | prevote
  | precommit
  deriving DecidableEq

structure Vote where
  chainId : UInt32
  committeeRoot : Hash256
  height : UInt64
  round : UInt32
  phase : VotePhase
  block : Option Hash256
  voter : ValidatorId
  signature : Fixed 64
  deriving DecidableEq

def VotePhase.byte : VotePhase → UInt8
  | .prevote => 0
  | .precommit => 1

def VotePhase.position : VotePhase → UInt8
  | .prevote => prevotePhase
  | .precommit => precommitPhase

def blockBytes : Option Hash256 → Bytes
  | none => [0] ++ Hash256.zero.1
  | some block => [1] ++ block.1

namespace Vote

def signingBytes (v : Vote) : Bytes :=
  ascii "ALVT" ++ (u32Bytes 1 ++ (u32Bytes v.chainId ++ (u64Bytes v.height ++ (u32Bytes v.round ++
    ([v.phase.byte] ++ (blockBytes v.block ++ (v.committeeRoot.1 ++ v.voter.1)))))))

def signingHash (H : Hasher) (v : Vote) : Hash256 :=
  domainHash H (ascii "astrolune.vote.v1") v.signingBytes

end Vote

structure Proposal where
  chainId : UInt32
  genesis : Hash256
  height : UInt64
  round : UInt32
  committeeRoot : Hash256
  block : Hash256
  proposer : ValidatorId
  validRound : Option UInt32
  signature : Fixed 64

def roundBytes : Option UInt32 → Bytes
  | none => [0] ++ u32Bytes 0
  | some round => [1] ++ u32Bytes round

namespace Proposal

def signingBytes (p : Proposal) : Bytes :=
  ascii "ALPR" ++ (u32Bytes 1 ++ (u32Bytes p.chainId ++ (p.genesis.1 ++ (u64Bytes p.height ++
    (u32Bytes p.round ++ (p.committeeRoot.1 ++ (p.block.1 ++ (p.proposer.1 ++
      roundBytes p.validRound))))))))

def signingHash (H : Hasher) (p : Proposal) : Hash256 :=
  domainHash H (ascii "astrolune.proposal.v1") p.signingBytes

end Proposal

lemma VotePhase.byte_injective {p q : VotePhase} (h : p.byte = q.byte) : p = q := by
  cases p <;> cases q <;> first | rfl | cases h

lemma blockBytes_length (block : Option Hash256) : (blockBytes block).length = 33 := by
  cases block with
  | none => rfl
  | some block => simp [blockBytes,block.2]

lemma blockBytes_injective {a b : Option Hash256} (h : blockBytes a = blockBytes b) : a = b := by
  cases a <;> cases b
  case none.none => rfl
  case some.some a b =>
    obtain ⟨_,h⟩ := append_inj h rfl
    rw [Subtype.ext h]
  all_goals
    obtain ⟨h,_⟩ := append_inj h rfl
    cases h

lemma Vote.signingBytes_injective {v w : Vote} (h : v.signingBytes = w.signingBytes) :
    v = { w with signature := v.signature } := by
  obtain ⟨_,h⟩ := append_inj h rfl
  obtain ⟨_,h⟩ := append_inj h rfl
  obtain ⟨hc,h⟩ := append_inj h (by simp)
  obtain ⟨hh,h⟩ := append_inj h (by simp)
  obtain ⟨hro,h⟩ := append_inj h (by simp)
  obtain ⟨hp,h⟩ := append_inj h rfl
  obtain ⟨hb,h⟩ := append_inj h (by rw [blockBytes_length,blockBytes_length])
  obtain ⟨hr,hv⟩ := append_inj h (v.committeeRoot.2.trans w.committeeRoot.2.symm)
  rcases v with ⟨_,_,_,_,_,_,_,_⟩
  rw [Vote.mk.injEq]
  exact ⟨u32Bytes_injective hc,Subtype.ext hr,u64Bytes_injective hh,
    u32Bytes_injective hro,VotePhase.byte_injective (singleton_inj.mp hp),
    blockBytes_injective hb,Subtype.ext hv,rfl⟩

end Astrolune.Consensus
