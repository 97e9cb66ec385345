import Mathlib.Algebra.BigOperators.Group.List.Basic
import Mathlib.Algebra.Order.BigOperators.Group.List
import Astrolune.Crypto.Batch

namespace Astrolune.Consensus
open Lib Codec Crypto List

inductive ConsensusError where
  | invalidCommittee
  | equivocation
  | invalidCertificate
  | unknownVoter
  | duplicateVote
  | invalidProof
  | invalidTransition
  deriving DecidableEq

structure CommitteeMember where
  id : ValidatorId
  power : Nat
  deriving DecidableEq

structure Committee where
  height : UInt64
  members : List CommitteeMember
  deriving DecidableEq

def maxCommitteeMembers : Nat := 4096

def checkedAdd128 (a b : Nat) : Option Nat := if a + b < 2 ^ 128 then some (a + b) else none

def quorumPower (totalPower : Nat) : Nat := totalPower / 3 * 2 + totalPower % 3 * 2 / 3 + 1

namespace Committee

/-- One step of the fold in `total_power`, with the identities seen so far. -/
def addMember (acc : List ValidatorId × Nat) (m : CommitteeMember) :
    Except ConsensusError (List ValidatorId × Nat) := do
  ensure .invalidCommittee (m.power ≠ 0 ∧ m.id ∉ acc.1)
  let total ← okOr .invalidCommittee (checkedAdd128 acc.2 m.power)
  return (m.id :: acc.1, total)

def totalPower (c : Committee) : Except ConsensusError Nat := do
  ensure .invalidCommittee (c.members ≠ [] ∧ c.members.length ≤ maxCommitteeMembers)
  let (_, total) ← c.members.foldlM addMember ([], 0)
  return total

def memberBytes (m : CommitteeMember) : Bytes := m.id.1 ++ leBytes 16 m.power

def commitmentBytes (c : Committee) (chainId : UInt32) : Bytes :=
  ascii "ALCM" ++ (u32Bytes 1 ++ (u32Bytes chainId ++ (u64Bytes c.height ++
    (leBytes 4 c.members.length ++ c.members.flatMap memberBytes))))

def commitment (H : Hasher) (c : Committee) (chainId : UInt32) :
    Except ConsensusError Hash256 := do
  let _ ← c.totalPower
  return domainHash H (ascii "astrolune.committee.v1") (c.commitmentBytes chainId)

end Committee

/-- Verification context for one chain and height. The two maps are association lists with one
entry a validator. -/
structure AuthenticatedCommittee where
  chainId : UInt32
  height : UInt64
  root : Hash256
  total : Nat
  powers : List (ValidatorId × Nat)
  seats : List ValidatorId
  keys : List (ValidatorId × Fixed 32)
  deriving DecidableEq

namespace AuthenticatedCommittee

def register (H : Hasher) (verifier : Verifier) (powers : List (ValidatorId × Nat))
    (keys : List (ValidatorId × Fixed 32)) (key : Fixed 32) :
    Except ConsensusError (List (ValidatorId × Fixed 32)) := do
  ensure .invalidProof (verifier.strongKey key = true)
  let id := H key.1
  ensure .invalidCommittee ((powers.lookup id).isSome ∧ (keys.lookup id).isNone)
  return (id, key) :: keys

def new (H : Hasher) (verifier : Verifier) (chainId : UInt32) (c : Committee)
    (publicKeys : List (Fixed 32)) : Except ConsensusError AuthenticatedCommittee := do
  let total ← c.totalPower
  let root ← c.commitment H chainId
  ensure .invalidCommittee (publicKeys.length = c.members.length)
  let powers := c.members.map fun m => (m.id, m.power)
  let keys ← publicKeys.foldlM (register H verifier powers) []
  return ⟨chainId, c.height, root, total, powers, c.members.map (·.id), keys⟩

def votingPower (a : AuthenticatedCommittee) (validator : ValidatorId) : Option Nat :=
  a.powers.lookup validator

def registeredKey (a : AuthenticatedCommittee) (validator : ValidatorId) : Option (Fixed 32) :=
  a.keys.lookup validator

def quorum (a : AuthenticatedCommittee) : Nat := quorumPower a.total

end AuthenticatedCommittee

lemma checkedAdd128_eq_some {a b c : Nat} :
    checkedAdd128 a b = some c ↔ c = a + b ∧ c < 2 ^ 128 := by
  unfold checkedAdd128
  split <;> simp <;> omega

variable {c : Committee} {start total : Nat} {members : List CommitteeMember} {chainId : UInt32}
  {m : CommitteeMember}

lemma foldlM_checkedAdd (e : ConsensusError) {powers : List Nat}
    (h : start + powers.sum < 2 ^ 128) :
    powers.foldlM (fun total power => okOr e (checkedAdd128 total power)) start =
      .ok (start + powers.sum) := by
  induction powers generalizing start with
  | nil => rfl
  | cons power rest ih =>
    rw [sum_cons,← Nat.add_assoc] at h
    have ha : checkedAdd128 start power = some (start + power) := if_pos (by omega)
    rw [foldlM_cons,ha,okOr,ok_bind,ih h,sum_cons,Nat.add_assoc]

/-- What `total_power` has checked once it returns. -/
structure Committee.Weighed (members : List CommitteeMember) (total : Nat) : Prop where
  sum : total = (members.map (·.power)).sum
  bounded : total < 2 ^ 128
  distinct : (members.map (·.id)).Nodup
  positive : ∀ m ∈ members, m.power ≠ 0

lemma Committee.foldlM_addMember {seen seen' : List ValidatorId}
    (h : members.foldlM addMember (seen,start) = .ok (seen',total))
    (hs : start < 2 ^ 128) :
    total = start + (members.map (·.power)).sum ∧ total < 2 ^ 128 ∧
      (members.map (·.id)).Nodup ∧ (∀ m ∈ members, m.id ∉ seen) ∧
      ∀ m ∈ members, m.power ≠ 0 := by
  induction members generalizing seen start with
  | nil =>
    cases h
    exact ⟨rfl,hs,.nil,by simp,by simp⟩
  | cons m rest ih =>
    rw [foldlM_cons] at h
    obtain ⟨acc,hm,h⟩ := bind_eq_ok.mp h
    obtain ⟨_,hc,hm⟩ := bind_eq_ok.mp hm
    obtain ⟨next,ha,hm⟩ := bind_eq_ok.mp hm
    cases hm
    obtain ⟨hp,hn⟩ := ensure_eq_ok.mp hc
    obtain ⟨rfl,hb⟩ := checkedAdd128_eq_some.mp (okOr_eq_ok.mp ha)
    obtain ⟨ht,hbo,hno,hse,hal⟩ := ih h hb
    refine ⟨?_,hbo,?_,?_,?_⟩
    · rw [ht,map_cons,sum_cons,Nat.add_assoc]
    · rw [map_cons,nodup_cons]
      refine ⟨fun hme => ?_,hno⟩
      obtain ⟨other,ho,he⟩ := mem_map.mp hme
      exact hse other ho (by simp [he])
    · intro other ho
      rcases mem_cons.mp ho with rfl | ho
      · exact hn
      · exact fun hme => hse other ho (mem_cons_of_mem _ hme)
    · intro other ho
      rcases mem_cons.mp ho with rfl | ho
      · exact hp
      · exact hal other ho

lemma Committee.totalPower_ok (h : c.totalPower = .ok total) :
    Weighed c.members total ∧ c.members.length ≤ maxCommitteeMembers := by
  obtain ⟨_,hc,h⟩ := bind_eq_ok.mp h
  obtain ⟨⟨seen,_⟩,hf,h⟩ := bind_eq_ok.mp h
  cases h
  obtain ⟨ht,hb,hn,_,hp⟩ := foldlM_addMember hf (by decide)
  exact ⟨⟨by omega,hb,hn,hp⟩,(ensure_eq_ok.mp hc).2⟩

lemma Committee.foldlM_addMember_of {members : List CommitteeMember} {seen : List ValidatorId}
    {start : Nat}
    (hp : ∀ m ∈ members, m.power ≠ 0) (hno : (members.map (·.id)).Nodup)
    (hn : ∀ m ∈ members, m.id ∉ seen) (hs : start + (members.map (·.power)).sum < 2 ^ 128) :
    ∃ seen', members.foldlM addMember (seen,start) = .ok (seen',start + (members.map (·.power)).sum) := by
  induction members generalizing seen start with
  | nil => exact ⟨seen,rfl⟩
  | cons m members ih =>
    rw [forall_mem_cons] at hp hn
    rw [map_cons,nodup_cons] at hno
    rw [map_cons,sum_cons,← Nat.add_assoc] at hs ⊢
    have ha : addMember (seen,start) m = .ok (m.id :: seen,start + m.power) := by
      rw [addMember,ensure_of ⟨hp.1,hn.1⟩,ok_bind,checkedAdd128,if_pos (by dsimp only; omega)]
      rfl
    rw [foldlM_cons,ha,ok_bind]
    refine ih hp.2 hno.2 (fun other ho => ?_) hs
    rw [mem_cons,not_or]
    exact ⟨fun h => hno.1 (h ▸ mem_map_of_mem ho),hn.2 other ho⟩

lemma Committee.Weighed.totalPower {height : UInt64} (h : Weighed members total) (hn : members ≠ [])
    (hl : members.length ≤ maxCommitteeMembers) : Committee.totalPower ⟨height,members⟩ = .ok total := by
  have hs : 0 + (members.map (·.power)).sum = total := (Nat.zero_add _).trans h.sum.symm
  obtain ⟨seen,hf⟩ := @foldlM_addMember_of members [] 0 h.positive h.distinct (by simp) (hs ▸ h.bounded)
  rw [Committee.totalPower,ensure_of ⟨hn,hl⟩,ok_bind,hf,hs]
  rfl

def Committee.powers (c : Committee) : List (ValidatorId × Nat) :=
  c.members.map fun m => (m.id, m.power)

/-- A context that `new` returned, with the committee it stands for. -/
structure AuthenticatedCommittee.Seats (H : Hasher) (a : AuthenticatedCommittee)
    (c : Committee) : Prop where
  weighed : Committee.Weighed c.members a.total
  count : c.members.length ≤ maxCommitteeMembers
  height : a.height = c.height
  powers : a.powers = c.powers
  root : a.root = domainHash H (ascii "astrolune.committee.v1") (c.commitmentBytes a.chainId)

lemma AuthenticatedCommittee.new_ok {H : Hasher} {ver : Verifier} {publicKeys : List (Fixed 32)}
    {a : AuthenticatedCommittee}
    (h : new H ver chainId c publicKeys = .ok a) :
    a.chainId = chainId ∧ a.Seats H c := by
  obtain ⟨total,ht,h⟩ := bind_eq_ok.mp h
  obtain ⟨root,hr,h⟩ := bind_eq_ok.mp h
  obtain ⟨_,_,h⟩ := bind_eq_ok.mp h
  obtain ⟨keys,_,h⟩ := bind_eq_ok.mp h
  cases h
  obtain ⟨hw,hc⟩ := Committee.totalPower_ok ht
  obtain ⟨_,_,hr⟩ := bind_eq_ok.mp hr
  cases hr
  exact ⟨rfl,hw,hc,rfl,rfl,rfl⟩

lemma Committee.Weighed.power_lt (h : Weighed members total) (hm : m ∈ members) : m.power < 2 ^ 128 := by
  have hl : m.power ≤ (members.map (·.power)).sum := single_le_sum (by simp) _ (mem_map_of_mem hm)
  have := h.bounded
  have := h.sum
  omega

lemma Committee.memberBytes_length (m : CommitteeMember) : (memberBytes m).length = 48 := by
  simp [memberBytes,m.id.2]

lemma Committee.memberBytes_injective {m' : CommitteeMember} (hm : m.power < 2 ^ 128)
    (hm' : m'.power < 2 ^ 128) (h : memberBytes m = memberBytes m') : m = m' := by
  rcases m with ⟨id,power⟩
  rcases m' with ⟨id',power'⟩
  obtain ⟨hi,hp⟩ := append_inj h (id.2.trans id'.2.symm)
  have hpo : power = power' := leBytes_injective (by simpa using hm) (by simpa using hm') hp
  rw [CommitteeMember.mk.injEq]
  exact ⟨Subtype.ext hi,hpo⟩

lemma Committee.flatMap_memberBytes_injective {a b : List CommitteeMember}
    (ha : ∀ m ∈ a, m.power < 2 ^ 128) (hb : ∀ m ∈ b, m.power < 2 ^ 128)
    (hl : a.length = b.length) (h : a.flatMap memberBytes = b.flatMap memberBytes) : a = b := by
  induction a generalizing b with
  | nil =>
    rw [length_nil] at hl
    exact (length_eq_zero_iff.mp hl.symm).symm
  | cons m rest ih =>
    match b with
    | m' :: rest' =>
      rw [flatMap_cons,flatMap_cons] at h
      obtain ⟨hm,hr⟩ := append_inj h ((memberBytes_length m).trans (memberBytes_length m').symm)
      rw [memberBytes_injective (ha m (by simp)) (hb m' (by simp)) hm,
        ih (fun x hx => ha x (by simp [hx])) (fun x hx => hb x (by simp [hx])) (by simpa using hl) hr]

lemma Committee.commitmentBytes_injective {c' : Committee} {total' : Nat}
    {chainId' : UInt32} (hw : Weighed c.members total) (hw' : Weighed c'.members total')
    (hn : c.members.length ≤ maxCommitteeMembers) (hn' : c'.members.length ≤ maxCommitteeMembers)
    (h : c.commitmentBytes chainId = c'.commitmentBytes chainId') :
    chainId = chainId' ∧ c = c' := by
  obtain ⟨_,h⟩ := append_inj h rfl
  obtain ⟨_,h⟩ := append_inj h rfl
  obtain ⟨hc,h⟩ := append_inj h (by simp)
  obtain ⟨hh,h⟩ := append_inj h (by simp)
  obtain ⟨hco,h⟩ := append_inj h (by simp)
  simp only [maxCommitteeMembers] at hn hn'
  have hl := leBytes_injective (by omega) (by omega) hco
  have hme := flatMap_memberBytes_injective (fun m hm => hw.power_lt hm)
    (fun m hm => hw'.power_lt hm) hl h
  rcases c with ⟨height,members⟩
  rcases c' with ⟨he',members'⟩
  rw [Committee.mk.injEq]
  exact ⟨u32Bytes_injective hc,u64Bytes_injective hh,hme⟩

end Astrolune.Consensus
