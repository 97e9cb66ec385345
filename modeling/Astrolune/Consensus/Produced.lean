import Astrolune.State.Canonical
import Astrolune.Consensus.Handoff
import Astrolune.Consensus.Permanence
import Astrolune.Consensus.Recorded

namespace Astrolune.Consensus
open Lib Codec Crypto State List

variable {c : Suite} {H : Hasher}

lemma VrfBatch.validateShape_of_new {es : List VrfContribution} {b : VrfBatch}
    (h : VrfBatch.new es = .ok b) :
    b.validateShape = .ok () ∧ ∀ e ∈ b.entries, e ∈ es := by
  simp only [VrfBatch.new,bind_eq_ok,pure_ok_iff] at h
  obtain ⟨_,_,_,hs,rfl⟩ := h
  exact ⟨hs,fun e he => (mem_insertionSort _).mp he⟩

lemma VrfContribution.canonical_of_verify {e : VrfContribution} {cur : CommitteeState} {u : Unit}
    (h : e.verify c cur = .ok u) : e.Canonical c := by
  obtain ⟨validator,_,h⟩ := bind_eq_ok.mp h
  have hpr : ∀ p ∈ [(VrfRole.committee,e.committee),(VrfRole.producer,e.producer)],
      decodeProof c p.2.proof = true := by
    intro p hp
    obtain ⟨input,_,hv⟩ := bind_eq_ok.mp (of_forM h p hp)
    have hv := ensure_eq_ok.mp hv
    simp only [verifyVrf,Bool.and_eq_true] at hv
    exact hv.1.2
  exact ⟨hpr (.committee,e.committee) (by simp),hpr (.producer,e.producer) (by simp)⟩

/-- A pool and the calls of `insert` that led to it. -/
inductive ContributionPool.Reached (c : Suite) : ContributionPool → Prop where
  | new (current : CommitteeState) : Reached c (.new current)
  | insert {p : ContributionPool} (hp : Reached c p) (e : VrfContribution) :
      Reached c (p.insert c e).2

lemma ContributionPool.Reached.canonical {p : ContributionPool} (h : p.Reached c) :
    ∀ en ∈ p.entries.entries, en.2.Canonical c := by
  induction h with
  | new cur => simp [ContributionPool.new,OrderedMap.empty]
  | @insert p hp e ih =>
    intro en he
    unfold ContributionPool.insert at he
    split at he
    · exact ih en he
    · split at he
      · exact ih en he
      · next hv =>
        split at he
        · exact ih en he
        · have hg := OrderedMap.get_eq_some_iff.mpr he
          rw [OrderedMap.get_insert] at hg
          split at hg
          · cases hg
            exact VrfContribution.canonical_of_verify hv
          · exact ih en (OrderedMap.get_eq_some_iff.mp hg)

/-- The batches that the code builds. A batch can also be built around proofs that are not points and
scalars in canonical form; it has no bytes. -/
inductive VrfBatch.Produced (c : Suite) : VrfBatch → Prop where
  | new {entries : List VrfContribution} {b : VrfBatch} (h : VrfBatch.new entries = .ok b)
      (hentries : ∀ e ∈ entries, e.Canonical c) : Produced c b
  | complete {p : ContributionPool} {b : VrfBatch} (hp : p.Reached c) (h : p.complete = .ok b) :
      Produced c b
  | fromBytes {bytes : Bytes} {b : VrfBatch} (h : VrfBatch.fromBytes c bytes = .ok b) : Produced c b

lemma VrfBatch.Produced.canonical {b : VrfBatch} (h : b.Produced c) : b.Canonical c := by
  cases h with
  | new h hen =>
    obtain ⟨hs,hm⟩ := validateShape_of_new h
    exact ⟨hs,fun e he => hen e (hm e he)⟩
  | complete hp h =>
    obtain ⟨_,_,hn⟩ := bind_eq_ok.mp h
    obtain ⟨hs,hm⟩ := validateShape_of_new (failAs_eq_ok.mp hn)
    refine ⟨hs,fun e he => ?_⟩
    obtain ⟨en,hent,rfl⟩ := mem_map.mp (hm e he)
    exact hp.canonical en hent
  | fromBytes h => exact (fromBytes_eq_ok.mp h).1

namespace CommitteeState

variable {s next : CommitteeState}

lemma decodeProof_of_sampler {batch : VrfBatch} {role : VrfRole} {verified : VerifiedVrfSampler}
    (h : s.sampler c batch role = .ok verified) {e : VrfContribution} (he : e ∈ batch.entries) :
    decodeProof c (match role with
      | .committee => e.committee
      | .producer => e.producer).proof = true := by
  obtain ⟨_,hl,h⟩ := bind_eq_ok.mp h
  obtain ⟨candidates,hca,h⟩ := bind_eq_ok.mp h
  obtain ⟨input,_,h⟩ := bind_eq_ok.mp h
  have hl := ensure_eq_ok.mp hl
  -- the contribution stands beside a member of the roster
  rw [← map_snd_zip hl.le] at he
  obtain ⟨⟨v,e⟩,hp,rfl⟩ := mem_map.mp he
  obtain ⟨candidate,hm,hc⟩ := ok_of_mapM hca hp
  simp only [CommitteeState.candidate,bind_eq_ok,pure_ok_iff] at hc
  obtain ⟨_,_,rfl⟩ := hc
  simp only [VerifiedVrfSampler.new,bind_eq_ok] at h
  obtain ⟨_,_,_,_,_,hpr,_⟩ := h
  obtain ⟨_,_,hs⟩ := step_of_foldlM hpr hm
  simp only [VerifiedVrfSampler.checkCandidate,bind_eq_ok,ensure_eq_ok,Option.any_eq_true] at hs
  obtain ⟨_,_,_,⟨_,_,hv⟩,_⟩ := hs
  simp only [verifyVrf,Bool.and_eq_true] at hv
  exact hv.1.2

lemma canonical_of_transition {batch : VrfBatch} (hsh : batch.validateShape = .ok ())
    (h : s.transition c batch = .ok next) : batch.Canonical c := by
  obtain ⟨_,hs⟩ := transition_ok h
  refine ⟨hsh,fun e he => ?_⟩
  obtain ⟨_,hc⟩ := hs .committee
  obtain ⟨_,hp⟩ := hs .producer
  exact ⟨decodeProof_of_sampler hc he,decodeProof_of_sampler hp he⟩

lemma validate_of_fromGenesis {g : Genesis} {keys : List (Fixed 32)}
    (h : CommitteeState.fromGenesis c g keys = .ok s) : s.validate c = .ok () := by
  simp only [CommitteeState.fromGenesis,bind_eq_ok,pure_ok_iff] at h
  obtain ⟨_,_,_,_,_,_,_,_,_,_,_,hv,rfl⟩ := h
  exact hv

lemma validate_bindPotbNamespace {gen : Hash256} (h : s.validate c = .ok ())
    (hg : gen ≠ Hash256.zero) : (s.bindPotbNamespace c gen).validate c = .ok () := by
  simp only [validate,bind_eq_ok,ensure_eq_ok] at h ⊢
  obtain ⟨_,⟨hc,_,hr⟩,hl⟩ := h
  exact ⟨(),⟨hc,hg,hr⟩,hl⟩

/-- The states that genesis, rotation, the policy profile and the decoder return. The namespace is
bound where a history over it starts. -/
inductive Produced (c : Suite) : CommitteeState → Prop where
  | fromGenesis {g : Genesis} {keys : List (Fixed 32)} {s : CommitteeState}
      (h : CommitteeState.fromGenesis c g keys = .ok s) : Produced c s
  | transition {s next : CommitteeState} {batch : VrfBatch} (h : s.transition c batch = .ok next) :
      Produced c next
  | transitionPotb {s next : CommitteeState} {batch : VrfBatch} {roster : List VrfValidator}
      (h : s.transitionPotb c batch roster = .ok next) : Produced c next
  | withPotbCapacity {s next : CommitteeState} {capacity : Resources}
      (h : s.withPotbCapacity c capacity = .ok next) : Produced c next
  | bindPotbNamespace {s : CommitteeState} {genesis : Hash256} {history : CommitteeHistory}
      (hs : Produced c s) (h : CommitteeHistory.new s.chainId genesis = .ok history) :
      Produced c (s.bindPotbNamespace c genesis)
  | fromBytes {bytes : Bytes} {s : CommitteeState} (h : CommitteeState.fromBytes c bytes = .ok s) :
      Produced c s

lemma Produced.valid (h : s.Produced c) : s.validate c = .ok () := by
  induction h with
  | fromGenesis h => exact validate_of_fromGenesis h
  | transition h => exact (transition_ok h).1
  | transitionPotb h => exact (transitionPotb_ok h).valid
  | withPotbCapacity h => exact (withPotbCapacity_ok h).2
  | bindPotbNamespace hs h ih =>
    exact validate_bindPotbNamespace ih (CommitteeHistory.new_eq_ok.mp h).1.2
  | fromBytes h => exact (fromBytes_eq_ok.mp h).1

end CommitteeState

namespace CommitteeHistory

variable {h next : CommitteeHistory}

variable {frontier : List (Option Hash256)} {lookup : Nat → Except ConsensusError Hash256}

lemma occupied_succ {es lv : Nat} :
    Occupied es (lv + 1) frontier ↔ Occupied (es / 2) lv frontier := by
  induction frontier generalizing lv with
  | nil => exact Iff.rfl
  | cons peak rest ih => rw [occupied_cons,occupied_cons,ih,Nat.testBit_succ]

lemma occupied_carryIn {join : Hash256 → Hash256 → Hash256} {after : List (Option Hash256)}
    {es : Nat} {carry : Hash256} (ho : Occupied es 0 frontier)
    (hc : carryIn join frontier es carry = some after) :
    after.length = frontier.length ∧ Occupied (es + 1) 0 after := by
  induction frontier generalizing es carry after with
  | nil => cases hc
  | cons slot rest ih =>
    rw [occupied_cons,occupied_succ] at ho
    unfold carryIn at hc
    split at hc
    · next hod =>
      cases slot with
      | none => cases hc
      | some left =>
        obtain ⟨tail,ht,rfl⟩ := Option.map_eq_some_iff.mp hc
        obtain ⟨hl,hoc⟩ := ih ho.2 ht
        have hh : (es + 1) / 2 = es / 2 + 1 := by omega
        refine ⟨by rw [length_cons,length_cons,hl],?_⟩
        rw [occupied_cons,occupied_succ,hh]
        refine ⟨?_,hoc⟩
        simp [Nat.testBit_zero]
        omega
    · next he =>
      cases hc
      have hh : (es + 1) / 2 = es / 2 := by omega
      refine ⟨rfl,?_⟩
      rw [occupied_cons,occupied_succ,hh]
      refine ⟨?_,ho.2⟩
      simp [Nat.testBit_zero]
      omega

lemma Canonical.append {ctx : AuthenticatedCommittee} (hc : h.Canonical)
    (ha : h.append H ctx = some (.ok next)) : next.Canonical := by
  unfold CommitteeHistory.append at ha
  split at ha
  · cases ha
  · next es he =>
    obtain ⟨rfl,hlt⟩ := checkedAdd64_eq_some.mp he
    split at ha
    · obtain ⟨frontier,hca,hn⟩ := Option.map_eq_some_iff.mp ha
      cases hn
      obtain ⟨hl,ho⟩ := occupied_carryIn hc.occupied hca
      exact ⟨hc.chainId,hc.genesis,hlt,hl.trans hc.slots,ho⟩
    · cases ha

lemma append_of_tryAppend {ctx : AuthenticatedCommittee}
    (hap : h.tryAppend H ctx = .ok next) : h.append H ctx = some (.ok next) := by
  unfold tryAppend at hap
  cases ha : h.append H ctx with
  | none =>
    rw [ha] at hap
    cases hap
  | some res =>
    rw [ha,Option.getD_some] at hap
    rw [hap]

lemma canonical_of_new {chainId : UInt32} {gen : Hash256}
    (hn : CommitteeHistory.new chainId gen = .ok h) : h.Canonical := by
  obtain ⟨⟨hc,hg⟩,rfl⟩ := new_eq_ok.mp hn
  have he : Occupied 0 0 (replicate 64 none) := by
    unfold Occupied
    decide
  exact ⟨hc,hg,Nat.two_pow_pos 64,length_replicate,he⟩

/-- The histories that the code builds: empty, appended to, or decoded. -/
inductive Produced (H : Hasher) : CommitteeHistory → Prop where
  | new {chainId : UInt32} {genesis : Hash256} {h : CommitteeHistory}
      (hnew : CommitteeHistory.new chainId genesis = .ok h) : Produced H h
  | append {h next : CommitteeHistory} {context : AuthenticatedCommittee} (hh : Produced H h)
      (happend : h.append H context = some (.ok next)) : Produced H next
  | fromBytes {bytes : Bytes} {h : CommitteeHistory}
      (hread : CommitteeHistory.fromBytes bytes = .ok h) : Produced H h

lemma Produced.canonical (hp : h.Produced H) : h.Canonical := by
  induction hp with
  | new hn => exact canonical_of_new hn
  | append _ ha ih => exact ih.append ha
  | fromBytes hr => exact (fromBytes_eq_ok.mp hr).1

lemma lookups_of_subtree {fuel start count : Nat}
    {pre after : CommitteeHistoryProof} {x : Hash256} (hp : 0 < count)
    (hs : h.subtree H lookup fuel start count pre = .ok (x,after)) :
    ∃ roots : List Hash256, roots.length = count ∧
      ∀ i root, roots[i]? = some root → lookup (start + i + 1) = .ok root := by
  induction fuel generalizing start count pre after x with
  | zero =>
    rw [subtree] at hs
    split at hs
    · next ho =>
      obtain ⟨root,hro,_⟩ := bind_eq_ok.mp hs
      refine ⟨[root],ho.symm,fun i r hi => ?_⟩
      obtain ⟨rfl,rfl⟩ : i = 0 ∧ root = r := by
        cases i <;> simp_all
      exact hro
    · cases hs
  | succ fuel ih =>
    rw [subtree] at hs
    split at hs
    · next ho =>
      obtain ⟨root,hro,_⟩ := bind_eq_ok.mp hs
      refine ⟨[root],ho.symm,fun i r hi => ?_⟩
      obtain ⟨rfl,rfl⟩ : i = 0 ∧ root = r := by
        cases i <;> simp_all
      exact hro
    · next hm =>
      obtain ⟨hsp,hlt,_⟩ := split_bounds (by omega : 1 < count)
      obtain ⟨⟨left,middle⟩,hl,hs⟩ := bind_eq_ok.mp hs
      obtain ⟨⟨right,last⟩,hr,_⟩ := bind_eq_ok.mp hs
      obtain ⟨lower,hlow,hlookLower⟩ := ih hsp hl
      obtain ⟨upper,hu,hlookUpper⟩ := ih (by omega) hr
      refine ⟨lower ++ upper,by rw [length_append]; omega,fun i root hi => ?_⟩
      by_cases hsi : i < lower.length
      · exact hlookLower i root (by rwa [getElem?_append_left hsi] at hi)
      · rw [getElem?_append_right (by omega)] at hi
        have hlo := hlookUpper _ root hi
        rwa [show start + split count + (i - lower.length) + 1 = start + i + 1 by omega] at hlo

lemma canonical_of_prove {height maximum : Nat}
    {p : CommitteeHistoryProof} (hc : h.Canonical)
    (hpr : h.prove H height maximum lookup = .ok p) : p.Canonical := by
  simp only [prove,bind_eq_ok,ensure_eq_ok,pure_ok_iff,Prod.exists] at hpr
  obtain ⟨_,⟨hn,hl,_⟩,root,_,hsu,_,_,rfl⟩ := hpr
  obtain ⟨roots,hlen,hlo⟩ := lookups_of_subtree (by omega) hsu
  have hro : roots ≠ [] := ne_nil_of_length_pos (by omega)
  rw [← hlen] at hsu
  obtain ⟨x,after,hru,_,hco⟩ := @subtree_ok H h roots 0 lookup roots.length hro
    (by omega) hlo ⟨roots.length,height,Hash256.zero,[]⟩
  rw [hru] at hsu
  cases hsu
  obtain ⟨i,rfl⟩ := Nat.exists_eq_add_one.mpr (Nat.pos_of_ne_zero hn)
  obtain ⟨r,hr⟩ : ∃ r, roots[i]? = some r := ⟨_,getElem?_eq_getElem (by omega)⟩
  obtain ⟨_,path,hp,hs⟩ := hco.inside i r (by simp) hr
  rw [nil_append] at hs
  have hle : (h.leavesFrom H 0 roots).length = roots.length := length_leavesFrom ..
  have hd : splitDepth roots.length i _ = path.length := hp.splitDepth (by omega)
  have hb : path.length ≤ 64 := hp.length_le (by have := hc.bounded; omega)
  rw [hle] at hd
  refine ⟨CommitteeHistoryProof.validateShape_ok.mpr ?_,?_⟩
  · rw [hco.entries,hco.height,hs]
    exact ⟨⟨hn,hlen.symm ▸ hl,hb⟩,hd.symm⟩
  · rw [hco.entries,hlen]
    exact hc.bounded

end CommitteeHistory

inductive CommitteeHistoryProof.Produced (H : Hasher) : CommitteeHistoryProof → Prop where
  | prove {h : CommitteeHistory} {height maximum : Nat} {lookup : Nat → Except ConsensusError Hash256}
      {p : CommitteeHistoryProof} (hh : h.Produced H)
      (hprove : h.prove H height maximum lookup = .ok p) : Produced H p
  | fromBytes {bytes : Bytes} {p : CommitteeHistoryProof}
      (hread : CommitteeHistoryProof.fromBytes bytes = .ok p) : Produced H p

lemma CommitteeHistoryProof.Produced.canonical {p : CommitteeHistoryProof}
    (hp : p.Produced H) : p.Canonical := by
  cases hp with
  | prove hh hpr => exact CommitteeHistory.canonical_of_prove hh.canonical hpr
  | fromBytes hr => exact (fromBytes_eq_ok.mp hr).1

namespace AuthenticatedCommittee

variable {ver : Verifier} {powers : List (ValidatorId × Nat)}

lemma foldlM_register {keys : List (Fixed 32)} {pre : List (ValidatorId × Fixed 32)}
    (hs : ∀ key ∈ keys, ver.strongKey key = true)
    (hm : ∀ key ∈ keys, (powers.lookup (H key.1)).isSome)
    (hno : (keys.map fun key => H key.1).Nodup)
    (hfr : ∀ key ∈ keys, pre.lookup (H key.1) = none) :
    ∃ after, keys.foldlM (register H ver powers) pre = .ok after := by
  induction keys generalizing pre with
  | nil => exact ⟨pre,rfl⟩
  | cons key rest ih =>
    rw [map_cons,nodup_cons] at hno
    have hf : register H ver powers pre key = .ok ((H key.1,key) :: pre) := by
      have hv : (powers.lookup (H key.1)).isSome ∧ (pre.lookup (H key.1)).isNone :=
        ⟨hm key (by simp),by rw [hfr key (by simp)]; rfl⟩
      simp only [register,ensure_of (hs key (by simp)),ok_bind,ensure_of hv,pure_eq_ok]
    obtain ⟨after,ha⟩ := @ih ((H key.1,key) :: pre) (fun k hk => hs k (mem_cons_of_mem _ hk))
      (fun k hk => hm k (mem_cons_of_mem _ hk)) hno.2 (fun k hk => by
        have hn : H k.1 ≠ H key.1 := fun heq => hno.1 (heq ▸ mem_map_of_mem hk)
        rw [lookup_cons,beq_false_of_ne hn]
        exact hfr k (mem_cons_of_mem _ hk))
    exact ⟨after,by rw [foldlM_cons,hf,ok_bind,ha]⟩

lemma new_of_keys {chainId : UInt32} {com : Committee} {keys other : List (Fixed 32)}
    {a : AuthenticatedCommittee} (h : AuthenticatedCommittee.new H ver chainId com keys = .ok a)
    (hi : other.map (fun key => H key.1) = com.members.map (·.id))
    (hke : ∀ key ∈ other, key ∈ keys) :
    ∃ a', AuthenticatedCommittee.new H ver chainId com other = .ok a' := by
  have hs := (new_ok h).2
  simp only [AuthenticatedCommittee.new,bind_eq_ok] at h
  obtain ⟨tot,ht,root,hro,_,_,registered,hr,_⟩ := h
  have hstr : ∀ key ∈ other, ver.strongKey key = true := by
    intro key hk
    obtain ⟨_,_,hst⟩ := step_of_foldlM hr (hke key hk)
    obtain ⟨_,hstr,_⟩ := bind_eq_ok.mp hst
    exact ensure_eq_ok.mp hstr
  have hm : ∀ key ∈ other, ((com.members.map fun m => (m.id,m.power)).lookup (H key.1)).isSome := by
    intro key hk
    obtain ⟨_,_,hst⟩ := step_of_foldlM hr (hke key hk)
    simp only [register,bind_eq_ok,ensure_eq_ok] at hst
    obtain ⟨_,_,_,hm,_⟩ := hst
    exact hm.1
  obtain ⟨after,ha⟩ := @foldlM_register H ver _ other [] hstr hm
    (by rw [hi]; exact hs.weighed.distinct) (fun _ _ => rfl)
  have hl : other.length = com.members.length := by
    rw [← length_map,hi,length_map]
  simp only [AuthenticatedCommittee.new,ht,ok_bind,hro,ensure_of hl,ha,pure_ok_iff,exists_eq']

end AuthenticatedCommittee

namespace HistoricalEvidence

variable {e : HistoricalEvidence}

variable {evidence : DoubleVoteEvidence} {keys : List (Fixed 32)}

lemma slot_of_verify {a : AuthenticatedCommittee} {u : Unit}
    (h : evidence.verify c a = .ok u) :
    evidence.sameSlot ∧ evidence.first.chainId = a.chainId ∧ evidence.height = a.height := by
  simp only [DoubleVoteEvidence.verify,AuthenticatedCommittee.verifyVote,
    AuthenticatedCommittee.voteCredentials,bind_eq_ok,ensure_eq_ok,pure_eq_ok] at h
  obtain ⟨_,hs,_,⟨_,⟨_,⟨hc,hh,_⟩,_⟩,_⟩,_⟩ := h
  exact ⟨hs,hc,hh⟩

lemma members_of_find {com : List CommitteeMember}
    {ms : List VrfValidator}
    (h : com.mapM (withKey c keys) = .ok ms) :
    ms.map (fun m => (⟨m.id c,m.weight⟩ : CommitteeMember)) = com ∧
      ∀ m ∈ ms, m.publicKey ∈ keys := by
  have ha := forall₂_of_mapM h
  clear h
  induction ha with
  | nil => exact ⟨rfl,by simp⟩
  | @cons member m _ _ hfi _ ih =>
    simp only [withKey,bind_eq_ok,okOr_eq_ok,pure_ok_iff] at hfi
    obtain ⟨pk,hf,rfl⟩ := hfi
    have hi : c.identity pk = member.id := by simpa using find?_some hf
    refine ⟨?_,forall_mem_cons.mpr ⟨mem_of_find?_eq_some hf,ih.2⟩⟩
    rw [map_cons,ih.1,VrfValidator.id,hi]

lemma canonical_of_new {trusted : CommitteeHistory} {committee : Committee}
    {hist : CommitteeHistoryProof} (hhi : hist.Canonical)
    (h : HistoricalEvidence.new c trusted committee keys hist evidence = .ok e) : e.Canonical c := by
  simp only [HistoricalEvidence.new,bind_eq_ok,ensure_eq_ok,pure_ok_iff] at h
  obtain ⟨_,⟨hn,hcou,hh,_⟩,a,hcon,_,_,_,hv,ms,hme,rfl⟩ := h
  obtain ⟨hi,hke⟩ := members_of_find hme
  obtain ⟨hsl,hc,ha⟩ := slot_of_verify hv
  obtain ⟨hs,hse⟩ := AuthenticatedCommittee.new_ok hcon
  have hl : ms.length = committee.members.length := by
    rw [← hi,length_map]
  have hco : (⟨evidence.height,ms.map fun m => ⟨m.id c,m.weight⟩⟩ : Committee) =
      committee := by
    rw [hi,ha,hse.height]
  have hsameIds : (ms.map (·.publicKey)).map (fun key => c.blake2s key.1) =
      committee.members.map (·.id) := by
    rw [← hi,map_map,map_map]
    rfl
  obtain ⟨a',ha'⟩ := AuthenticatedCommittee.new_of_keys hcon hsameIds fun key hk => by
    obtain ⟨m,hm,rfl⟩ := mem_map.mp hk
    exact hke m hm
  refine ⟨⟨a',?_⟩,hhi,hsl⟩
  have hsh : ms ≠ [] ∧ ms.length ≤ maxMembers ∧ hist.height = evidence.height.toNat := by
    refine ⟨?_,hl ▸ hcou,?_⟩
    · rintro rfl
      exact hn (length_eq_zero_iff.mp hl.symm)
    · rw [ha,hse.height,hh]
  rw [HistoricalEvidence.context,ensure_of hsh,ok_bind,hco,hc,hs]
  exact ha'

/-- The bundles that the code builds from proofs it has, and those decoded. -/
inductive Produced (c : Suite) : HistoricalEvidence → Prop where
  | new {trusted : CommitteeHistory} {committee : Committee} {keys : List (Fixed 32)}
      {history : CommitteeHistoryProof} {evidence : DoubleVoteEvidence} {e : HistoricalEvidence}
      (hhistory : history.Produced c.blake2s)
      (h : HistoricalEvidence.new c trusted committee keys history evidence = .ok e) : Produced c e
  | fromBytes {bytes : Bytes} {e : HistoricalEvidence}
      (h : HistoricalEvidence.fromBytes c bytes = .ok e) : Produced c e

lemma Produced.canonical (h : e.Produced c) : e.Canonical c := by
  cases h with
  | new hh h => exact canonical_of_new hh.canonical h
  | fromBytes h => exact (fromBytes_eq_ok.mp h).1

end HistoricalEvidence

inductive AdmissionCertificate.Produced (c : Suite) : AdmissionCertificate → Prop where
  | assemble {request : AdmissionRequest} {approvals : List Approval} {current : CommitteeState}
      {parent : Hash256} {a : AdmissionCertificate}
      (h : AdmissionCertificate.assemble c request approvals current parent = .ok a) : Produced c a
  | fromBytes {bytes : Bytes} {a : AdmissionCertificate}
      (h : AdmissionCertificate.fromBytes c bytes = .ok a) : Produced c a

lemma AdmissionCertificate.Produced.shape {a : AdmissionCertificate} (h : a.Produced c) :
    a.validateShape c = .ok () := by
  cases h with
  | assemble h =>
    simp only [AdmissionCertificate.assemble,AdmissionCertificate.verify,bind_eq_ok,pure_ok_iff,failAs_eq_ok] at h
    obtain ⟨_,_,_,⟨_,hs,_⟩,rfl⟩ := h
    exact hs
  | fromBytes h => exact (fromBytes_eq_ok.mp h).1

inductive GovernanceCertificate.Produced (c : Suite) : GovernanceCertificate → Prop where
  | assemble {request : GovernanceIntent} {approvals : List Approval} {current : CommitteeState}
      {parent : Hash256} {policy : GovernanceState} {g : GovernanceCertificate}
      (h : GovernanceCertificate.assemble c request approvals current parent policy = .ok g) :
      Produced c g
  | fromBytes {bytes : Bytes} {g : GovernanceCertificate}
      (h : GovernanceCertificate.fromBytes c.blake2s bytes = .ok g) : Produced c g

lemma GovernanceCertificate.Produced.shape {g : GovernanceCertificate} (h : g.Produced c) :
    g.validateShape c.blake2s = .ok () := by
  cases h with
  | assemble h =>
    simp only [GovernanceCertificate.assemble,GovernanceCertificate.verify,bind_eq_ok,pure_ok_iff,failAs_eq_ok] at h
    obtain ⟨_,⟨_,hs,_⟩,rfl⟩ := h
    exact hs
  | fromBytes h => exact (fromBytes_eq_ok.mp h).1

inductive GovernanceState.Produced (c : Suite) : GovernanceState → Prop where
  | new {policy : GovernancePolicy} {active : NetworkParameters} {g : GovernanceState}
      (h : GovernanceState.new policy active = .ok g) : Produced c g
  | stage {g next : GovernanceState} {current : CommitteeState} {parent : Hash256}
      {certificate : Option GovernanceCertificate}
      (h : g.stage c current parent certificate = .ok next) : Produced c next
  | fromBytes {bytes : Bytes} {g : GovernanceState} (h : GovernanceState.fromBytes bytes = .ok g) :
      Produced c g

lemma GovernanceState.Produced.canonical {g : GovernanceState} (h : g.Produced c) : g.Canonical := by
  cases h with
  | new h =>
    simp only [GovernanceState.new,bind_eq_ok,pure_ok_iff] at h
    obtain ⟨_,hp,rfl⟩ := h
    exact ⟨hp,rfl⟩
  | stage h =>
    simp only [GovernanceState.stage,bind_eq_ok,pure_ok_iff] at h
    obtain ⟨_,_,_,_,_,_,_,hv,rfl⟩ := h
    exact canonical_of_validate hv
  | fromBytes h => exact (fromBytes_eq_ok.mp h).1

/-- The configurations the code builds. The increment of a policy is a 128-bit number. -/
inductive PotbConfiguration.Produced : PotbConfiguration → Prop where
  | new {genesis : Genesis} {policy : PotbPolicy} {config : PotbConfiguration}
      (hage : policy.ageIncrement < 2 ^ 128) (h : PotbConfiguration.new genesis policy = .ok config) :
      Produced config
  | withGovernance {config next : PotbConfiguration} {policy : GovernancePolicy} (hc : Produced config)
      (h : config.withGovernance policy = .ok next) : Produced next
  | fromBytes {bytes : Bytes} {config : PotbConfiguration}
      (h : PotbConfiguration.fromBytes bytes = .ok config) : Produced config

lemma PotbConfiguration.Produced.canonical {config : PotbConfiguration} (h : config.Produced) :
    config.Canonical := by
  induction h with
  | new ha h =>
    obtain ⟨hn,rfl⟩ := new_eq_ok.mp h
    exact ⟨hn,ha,by simp⟩
  | withGovernance hc h ih =>
    simp only [PotbConfiguration.withGovernance,bind_eq_ok,pure_ok_iff] at h
    obtain ⟨_,hp,rfl⟩ := h
    refine ⟨ih.base,ih.age,fun granted hg => ?_⟩
    cases hg
    exact hp
  | fromBytes h => exact (fromBytes_eq_ok.mp h).1

inductive PotbBatch.Produced (c : Suite) : PotbBatch → Prop where
  | new {contributions : VrfBatch} {evidence : List HistoricalEvidence}
      {admissions : List AdmissionCertificate} {b : PotbBatch} (hcontributions : contributions.Produced c)
      (hevidence : ∀ e ∈ evidence, e.Produced c) (hadmissions : ∀ a ∈ admissions, a.Produced c)
      (h : PotbBatch.new c contributions evidence admissions = .ok b) : Produced c b
  | withGovernance {b next : PotbBatch} {certificate : GovernanceCertificate} (hb : Produced c b)
      (h : b.withGovernance c certificate = .ok next) : Produced c next
  | fromBytes {bytes : Bytes} {b : PotbBatch} (h : PotbBatch.fromBytes c bytes = .ok b) : Produced c b

lemma PotbBatch.Produced.canonical {b : PotbBatch} (h : b.Produced c) : b.Canonical c := by
  induction h with
  | new hc hev had h =>
    simp only [PotbBatch.new,bind_eq_ok,pure_ok_iff] at h
    obtain ⟨_,_,_,ho,rfl⟩ := h
    refine ⟨ho,hc.canonical,fun e he => ?_,fun a ha => ?_,by simp⟩
    · exact (hev e ((mem_insertionSort _).mp he)).canonical
    · exact (had a ((mem_insertionSort _).mp ha)).shape
  | withGovernance hb h ih =>
    simp only [PotbBatch.withGovernance,bind_eq_ok,pure_ok_iff, GovernanceCertificate.writes _ _] at h
    obtain ⟨_,⟨hs,_⟩,rfl⟩ := h
    exact ⟨ih.order,ih.contributions,ih.evidence,ih.admissions,by simpa using hs⟩
  | fromBytes h => exact (fromBytes_eq_ok.mp h).1

namespace PotbState

variable {s next : PotbState} {par : Hash256} {batch : PotbBatch}

lemma canonical_of_fromConfiguration {config : PotbConfiguration} {keys : List (Fixed 32)}
    (ha : config.policy.ageIncrement < 2 ^ 128)
    (h : PotbState.fromConfiguration c config keys = .ok s) : s.Canonical c := by
  simp only [PotbState.fromConfiguration,bind_eq_ok,pure_ok_iff] at h
  obtain ⟨base,hb,hist,hh,_,_,_,hv,rfl⟩ := h
  have hg := (CommitteeHistory.new_eq_ok.mp hh).1.2
  exact ⟨hv,CommitteeState.validate_bindPotbNamespace (CommitteeState.validate_of_fromGenesis hb)
    hg,CommitteeHistory.canonical_of_new hh,ha⟩

lemma Canonical.stage (hs : s.Canonical c) (h : s.stage c par batch = .ok next) :
    next.Canonical c := by
  simp only [PotbState.stage,bind_eq_ok,pure_ok_iff] at h
  obtain ⟨_,_,_,_,_,_,rs,_,roster,_,rotated,hr,gov,_,com,hc, _,_,history,hh,_,hv,rfl⟩ := h
  have hco : com.validate c = .ok () := by
    cases gov with
    | none =>
      cases hc
      exact (CommitteeState.transitionPotb_ok hr).valid
    | some params => exact (CommitteeState.withPotbCapacity_ok hc).2
  exact ⟨hv,hco,hs.history.append (CommitteeHistory.append_of_tryAppend hh),hs.age⟩

/-- The states that configurations start, transitions reach and the decoder returns. -/
inductive Produced (c : Suite) : PotbState → Prop where
  | fromConfiguration {config : PotbConfiguration} {keys : List (Fixed 32)} {s : PotbState}
      (hc : config.Produced) (h : PotbState.fromConfiguration c config keys = .ok s) : Produced c s
  | stage {s next : PotbState} {parent : Hash256} {batch : PotbBatch} (hs : Produced c s)
      (h : s.stage c parent batch = .ok next) : Produced c next
  | fromBytes {bytes : Bytes} {s : PotbState} (h : PotbState.fromBytes c bytes = .ok s) : Produced c s

lemma Produced.canonical (h : s.Produced c) : s.Canonical c := by
  induction h with
  | fromConfiguration hc h => exact canonical_of_fromConfiguration hc.canonical.age h
  | stage _ h ih => exact ih.stage h
  | fromBytes h => exact (fromBytes_eq_ok.mp h).1

end PotbState

/-- Handoffs have no constructor of their own: these are the ones a verifier has accepted, the ones
that were stored, and the ones decoded. -/
inductive CommitteeHandoff.Produced (c : Suite) : CommitteeHandoff → Prop where
  | accepted {v : HandoffVerifier} {handoff : CommitteeHandoff}
      (h : (v.apply c handoff).1 = .ok ()) : Produced c handoff
  | stored {handoff : CommitteeHandoff} {bytes : Bytes} (h : handoff.toBytes c = .ok bytes) :
      Produced c handoff
  | fromBytes {bytes : Bytes} {handoff : CommitteeHandoff}
      (h : CommitteeHandoff.fromBytes c bytes = .ok handoff) : Produced c handoff

lemma HandoffVerifier.check_of_apply {v : HandoffVerifier} {ha : CommitteeHandoff}
    (h : (v.apply c ha).1 = .ok ()) : v.check c ha = .ok (v.apply c ha).2 := by
  unfold HandoffVerifier.apply at h ⊢
  split at h
  · cases h
  · next next hn => exact hn

lemma CommitteeHandoff.Produced.canonical {ha : CommitteeHandoff} (h : ha.Produced c) :
    ha.Canonical c := by
  cases h with
  | accepted h =>
    have hc := HandoffVerifier.check_of_apply h
    simp only [HandoffVerifier.check,bind_eq_ok,failAs_eq_ok,ensure_eq_ok] at hc
    obtain ⟨_,hs,_,_,next,ht,_,_,value,hv,_,rfl,_⟩ := hc
    have hco : ha.contributions.validateShape = .ok () := by
      simp only [CommitteeHandoff.validateShape,bind_eq_ok] at hs
      obtain ⟨_,_,_,_,_,_,hco⟩ := hs
      exact hco
    exact ⟨hs,CommitteeState.canonical_of_transition hco ht, StateValueProof.encodable_of_accepted hv⟩
  | stored h =>
    simp only [CommitteeHandoff.toBytes,bind_eq_ok,failAs_eq_ok,VrfBatch.writes _ _,
      StateValueProof.writes _ _] at h
    obtain ⟨_,hs,_,_,_,⟨hco,_⟩,_,⟨hw,_⟩,_⟩ := h
    exact ⟨hs,hco,hw⟩
  | fromBytes h => exact ((decodes _ _).mp h).1

inductive PotbHandoff.Produced (c : Suite) : PotbHandoff → Prop where
  | accepted {v : PotbVerifier} {handoff : PotbHandoff} (hbatch : handoff.batch.Produced c)
      (h : (v.apply c handoff).1 = .ok ()) : Produced c handoff
  | stored {handoff : PotbHandoff} {bytes : Bytes} (hbatch : handoff.batch.Produced c)
      (h : handoff.toBytes c = .ok bytes) : Produced c handoff
  | fromBytes {bytes : Bytes} {handoff : PotbHandoff}
      (h : PotbHandoff.fromBytes c bytes = .ok handoff) : Produced c handoff

lemma PotbHandoff.Produced.canonical {ha : PotbHandoff} (h : ha.Produced c) :
    ha.Canonical c := by
  cases h with
  | accepted hb h =>
    unfold PotbVerifier.apply at h
    split at h
    · cases h
    · next next hn =>
      simp only [bind_eq_ok,failAs_eq_ok,ensure_eq_ok] at hn
      obtain ⟨_,hs,_,_,_,_,_,_,_,hv,_,rfl,_⟩ := hn
      exact ⟨hs,hb.canonical,StateValueProof.encodable_of_accepted hv⟩
  | stored hb h =>
    simp only [PotbHandoff.toBytes,bind_eq_ok,failAs_eq_ok,StateValueProof.writes _ _] at h
    obtain ⟨_,hs,_,⟨hw,_⟩,_⟩ := h
    exact ⟨hs,hb.canonical,hw⟩
  | fromBytes h => exact ((decodes _ _).mp h).1

/-- Each format reads back what it writes for every value the code produces, and writes again, to the
byte, what it reads. -/
theorem nested_formats_round_trip (c : Suite) :
    RoundTrips (CommitteeState.Produced c) (CommitteeState.toBytes c) (CommitteeState.fromBytes c) ∧
    RoundTrips (CommitteeHistory.Produced c.blake2s)
      (fun h => (.ok h.toBytes : Except DecodeError Bytes)) CommitteeHistory.fromBytes ∧
    RoundTrips (CommitteeHistoryProof.Produced c.blake2s) CommitteeHistoryProof.toBytes
      CommitteeHistoryProof.fromBytes ∧
    RoundTrips (VrfBatch.Produced c) (VrfBatch.toBytes c) (VrfBatch.fromBytes c) ∧
    RoundTrips (AdmissionCertificate.Produced c) (AdmissionCertificate.toBytes c)
      (AdmissionCertificate.fromBytes c) ∧
    RoundTrips (GovernanceCertificate.Produced c) (GovernanceCertificate.toBytes c.blake2s)
      (GovernanceCertificate.fromBytes c.blake2s) ∧
    RoundTrips (GovernanceState.Produced c)
      (fun g => (.ok g.toBytes : Except DecodeError Bytes)) GovernanceState.fromBytes ∧
    RoundTrips (HistoricalEvidence.Produced c) (HistoricalEvidence.toBytes c)
      (HistoricalEvidence.fromBytes c) ∧
    RoundTrips PotbConfiguration.Produced
      (fun config => (.ok config.toBytes : Except DecodeError Bytes)) PotbConfiguration.fromBytes ∧
    RoundTrips (PotbBatch.Produced c) (PotbBatch.toBytes c) (PotbBatch.fromBytes c) ∧
    RoundTrips (PotbState.Produced c) (PotbState.toBytes c) (PotbState.fromBytes c) ∧
    RoundTrips (CommitteeHandoff.Produced c) (CommitteeHandoff.toBytes c)
      (CommitteeHandoff.fromBytes c) ∧
    RoundTrips (PotbHandoff.Produced c) (PotbHandoff.toBytes c) (PotbHandoff.fromBytes c) := by
  refine ⟨?_,?_,?_,?_,?_,?_,?_,?_,?_,?_,?_,?_,?_⟩
  · exact .of (fun _ h => (CommitteeState.writes _ _).mpr ⟨h,rfl⟩)
      (fun _ _ => CommitteeState.fromBytes_eq_ok) fun _ h => h.valid
  · exact .of (fun _ _ => rfl) (fun _ _ => CommitteeHistory.fromBytes_eq_ok) fun _ h => h.canonical
  · exact .of (fun _ h => CommitteeHistoryProof.toBytes_eq_ok.mpr ⟨h.1,rfl⟩)
      (fun _ _ => CommitteeHistoryProof.fromBytes_eq_ok) fun _ h => h.canonical
  · exact .of (fun _ h => (VrfBatch.writes _ _).mpr ⟨h,rfl⟩) (fun _ _ => VrfBatch.fromBytes_eq_ok)
      fun _ h => h.canonical
  · exact .of (fun _ h => (AdmissionCertificate.writes _ _).mpr ⟨h,rfl⟩)
      (fun _ _ => AdmissionCertificate.fromBytes_eq_ok) fun _ h => h.shape
  · exact .of (fun _ h => (GovernanceCertificate.writes _ _).mpr ⟨h,rfl⟩)
      (fun _ _ => GovernanceCertificate.fromBytes_eq_ok) fun _ h => h.shape
  · exact .of (fun _ _ => rfl) (fun _ _ => GovernanceState.fromBytes_eq_ok) fun _ h => h.canonical
  · exact .of (fun _ h => HistoricalEvidence.toBytes_eq_ok.mpr ⟨h.context,h.history.1,rfl⟩)
      (fun _ _ => HistoricalEvidence.fromBytes_eq_ok) fun _ h => h.canonical
  · exact .of (fun _ _ => rfl) (fun _ _ => PotbConfiguration.fromBytes_eq_ok) fun _ h => h.canonical
  · exact .of (fun _ h => PotbBatch.toBytes_of h) (fun _ _ => PotbBatch.fromBytes_eq_ok)
      fun _ h => h.canonical
  · exact .of (fun _ h => PotbState.toBytes_of h) (fun _ _ => PotbState.fromBytes_eq_ok)
      fun _ h => h.canonical
  · exact .of (fun _ h => CommitteeHandoff.toBytes_of h) CommitteeHandoff.decodes fun _ h => h.canonical
  · exact .of (fun _ h => PotbHandoff.toBytes_of h) PotbHandoff.decodes fun _ h => h.canonical

/-- A batch around proofs that no decoder takes is built, and has no bytes. -/
theorem vrf_batch_without_bytes : ∃ (c : Suite) (entries : List VrfContribution) (b : VrfBatch),
    VrfBatch.new entries = .ok b ∧ b.toBytes c = .error .nonCanonical := by
  let output : VrfOutput := { randomness := Hash256.zero, proof := replicate 80 255 }
  let entry : VrfContribution := { validator := Hash256.zero, committee := output, producer := output }
  exact ⟨{ TwoSteps.suite with canonicalProof := fun proof => proof ≠ replicate 80 255 },[entry],
    ⟨[entry]⟩,by decide,by decide⟩

end Astrolune.Consensus
