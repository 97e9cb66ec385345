import Mathlib.Logic.Relation
import Astrolune.Consensus.Potb

namespace Astrolune.Consensus
open Lib Codec Crypto List

/-- A later version of a record: the same key and admission, and no offence forgotten. -/
structure PotbRecord.Continues (r r' : PotbRecord) : Prop where
  key : r'.publicKey = r.publicKey
  admitted : r'.admittedAt = r.admittedAt
  banned : ∀ offence ∈ r.disqualification, r'.disqualification = some offence

lemma PotbRecord.Continues.refl (r : PotbRecord) : r.Continues r := ⟨rfl,rfl,fun _ h => h⟩

lemma PotbRecord.Continues.trans {r r' r'' : PotbRecord} (h : r.Continues r')
    (h' : r'.Continues r'') : r.Continues r'' where
  key := h'.key.trans h.key
  admitted := h'.admitted.trans h.admitted
  banned offence ho := h'.banned offence (h.banned offence ho)

def Extends (m m' : OrderedMap ValidatorId PotbRecord) : Prop :=
  ∀ id r, m.get id = some r → ∃ r', m'.get id = some r' ∧ r.Continues r'

namespace Extends

variable {m m' m'' : OrderedMap ValidatorId PotbRecord}

lemma refl (m : OrderedMap ValidatorId PotbRecord) : Extends m m := fun _ r hr => ⟨r,hr,.refl r⟩

lemma trans (h : Extends m m') (h' : Extends m' m'') : Extends m m'' := by
  intro id r hr
  obtain ⟨r',hr',hc⟩ := h id r hr
  obtain ⟨r'',hr'',hc'⟩ := h' id r' hr'
  exact ⟨r'',hr'',hc.trans hc'⟩

lemma insert {id : ValidatorId} {rec : PotbRecord}
    (h : ∀ r, m.get id = some r → r.Continues rec) : Extends m (m.insert id rec) := by
  intro id' r hr
  rw [OrderedMap.get_insert]
  split
  · next heq => exact ⟨rec,rfl,h r (heq ▸ hr)⟩
  · exact ⟨r,hr,.refl r⟩

lemma get_eq_none (h : Extends m m') {id : ValidatorId} (hi : m'.get id = none) :
    m.get id = none := by
  cases hr : m.get id with
  | none => rfl
  | some r =>
    obtain ⟨r',hr',_⟩ := h id r hr
    rw [hi] at hr'
    cases hr'

end Extends

namespace PotbState

variable {c : Suite}

section Records

variable {rs next : OrderedMap ValidatorId PotbRecord}

variable {id : ValidatorId} {com : CommitteeState}

lemma countBlock_extends (h : countBlock rs id = .ok next) : Extends rs next := by
  simp only [countBlock,bind_eq_ok,okOr_eq_ok,pure_ok_iff] at h
  obtain ⟨rec,hre,_,_,rfl⟩ := h
  apply Extends.insert
  intro r hr
  rw [hre,Option.some.injEq] at hr
  exact hr ▸ ⟨rfl,rfl,fun _ ho => ho⟩

lemma disqualify_extends {hist : CommitteeHistory} {bundle : HistoricalEvidence}
    (h : disqualify c hist rs bundle = .ok next) : Extends rs next := by
  simp only [disqualify,bind_eq_ok,okOr_eq_ok,ensure_eq_ok,pure_ok_iff] at h
  obtain ⟨_,_,rec,hre,_,⟨hf,_⟩,rfl⟩ := h
  apply Extends.insert
  intro r hr
  rw [hre,Option.some.injEq] at hr
  refine hr ▸ ⟨rfl,rfl,fun offence ho => ?_⟩
  -- an offence is recorded only where none was
  rw [hf] at ho
  cases ho

variable {par : Hash256} {cert : AdmissionCertificate} {r : PotbRecord}
  {admissions : List AdmissionCertificate}

lemma admitCandidate_ok (h : admitCandidate c com par rs cert = .ok next) :
    rs.get (cert.request.candidate c) = none ∧ next = rs.insert (cert.request.candidate c)
        (admittedRecord com cert.request) := by
  simp only [admitCandidate,bind_eq_ok,ensure_eq_ok,pure_ok_iff] at h
  obtain ⟨_,_,_,hf,rfl⟩ := h
  exact ⟨hf,rfl⟩

lemma admitCandidate_keeps (h : admitCandidate c com par rs cert = .ok next)
    (hr : rs.get id = some r) : next.get id = some r := by
  obtain ⟨hf,rfl⟩ := admitCandidate_ok h
  rw [OrderedMap.get_insert,if_neg,hr]
  rintro rfl
  rw [hr] at hf
  cases hf

lemma admissions_keep (h : admissions.foldlM (admitCandidate c com par) rs = .ok next)
    (hr : rs.get id = some r) : next.get id = some r :=
  foldlM_preserves (P := fun m : OrderedMap ValidatorId PotbRecord => m.get id = some r)
    (fun _ _ _ _ hm hs => admitCandidate_keeps hs hm) hr h

lemma admissions_ok (h : admissions.foldlM (admitCandidate c com par) rs = .ok next) :
    ∀ a ∈ admissions, rs.get (a.request.candidate c) = none ∧
      next.get (a.request.candidate c) = some (admittedRecord com a.request) := by
  induction admissions generalizing rs with
  | nil => simp
  | cons first rest ih =>
    rw [foldlM_cons,bind_eq_ok] at h
    obtain ⟨middle,hf,hre⟩ := h
    intro a ha
    rcases mem_cons.mp ha with rfl | ha
    · obtain ⟨hfr,rfl⟩ := admitCandidate_ok hf
      exact ⟨hfr,admissions_keep hre (by rw [OrderedMap.get_insert,if_pos rfl])⟩
    · obtain ⟨hfr,hn⟩ := ih hre a ha
      refine ⟨?_,hn⟩
      cases hr : rs.get (a.request.candidate c) with
      | none => rfl
      | some r =>
        rw [admitCandidate_keeps hf hr] at hfr
        cases hfr

end Records

variable {s next : PotbState} {par : Hash256} {batch : PotbBatch}

/-- What the loops of `stage` do to the records. -/
structure StagedRecords (c : Suite) (s : PotbState) (batch : PotbBatch)
    (records : OrderedMap ValidatorId PotbRecord) : Prop where
  extended : Extends s.records records
  admitted : ∀ a ∈ batch.admissions, s.records.get (a.request.candidate c) = none ∧
    records.get (a.request.candidate c) = some (admittedRecord s.committee a.request)

lemma stageRecords_ok {rs : OrderedMap ValidatorId PotbRecord}
    (h : s.stageRecords c par batch = .ok rs) : StagedRecords c s batch rs := by
  simp only [stageRecords,bind_eq_ok] at h
  obtain ⟨ctx,_,counted,hcou,judged,hju,had⟩ := h
  have hj : Extends s.records judged := by
    have hco : Extends s.records counted := foldlM_preserves (P := Extends s.records)
        (fun _ _ _ _ hm hs => hm.trans (countBlock_extends hs)) (.refl _) hcou
    exact foldlM_preserves (P := Extends s.records)
      (fun _ _ _ _ hm hs => hm.trans (disqualify_extends hs)) hco hju
  refine ⟨?_,fun a ha => ?_⟩
  · exact fun id r hr => by
      obtain ⟨r',hr',hc⟩ := hj id r hr
      exact ⟨r',admissions_keep had hr',hc⟩
  · obtain ⟨hf,hn⟩ := admissions_ok had a ha
    exact ⟨hj.get_eq_none hf,hn⟩

/-- What an accepted transition has checked and done. -/
structure Staged (c : Suite) (s : PotbState) (batch : PotbBatch) (next : PotbState) : Prop where
  valid : next.validate c = .ok ()
  records : StagedRecords c s batch next.records
  members : ∀ id ∈ next.committee.members, id ∈ next.committee.roster.map (·.id c)
  incumbents : ∀ id ∈ next.committee.members, id ∈ s.committee.roster.map (·.id c)
  chain_eq : next.committee.chainId = s.committee.chainId
  genesis_eq : next.committee.genesis = s.committee.genesis

lemma stage_ok (h : s.stage c par batch = .ok next) : Staged c s batch next := by
  simp only [stage,bind_eq_ok,pure_ok_iff] at h
  obtain ⟨_,_,_,_,_,_,rs,hr,roster,hro,rotated,hrota,gov,_, com,hc,_,_,_,_,_,hv,rfl⟩ := h
  have hrot := CommitteeState.transitionPotb_ok hrota
  have hs := CommitteeState.validate_seats hrot.valid
  have hst := stageRecords_ok hr
  cases gov with
  | none =>
    cases hc
    exact ⟨hv,hst,hs,hrot.seated,hrot.chain_eq,hrot.genesis_eq⟩
  | some params =>
    obtain ⟨rfl,_⟩ := CommitteeState.withPotbCapacity_ok hc
    exact ⟨hv,hst,hs,hrot.seated,hrot.chain_eq,hrot.genesis_eq⟩

structure Sound (c : Suite) (s : PotbState) : Prop where
  valid : s.validate c = .ok ()
  members : ∀ id ∈ s.committee.members, id ∈ s.committee.roster.map (·.id c)

namespace Sound

lemma roster_eq (h : s.Sound c) : weightedRoster s.policy s.records = .ok s.committee.roster := by
  have hv := h.valid
  simp only [validate,bind_eq_ok,ensure_eq_ok] at hv
  obtain ⟨_,_,_,_,_,_,_,_,roster,hr,heq⟩ := hv
  rw [hr,heq]

variable {id : ValidatorId} {r : PotbRecord}

lemma checked (h : s.Sound c) (hr : s.records.get id = some r) :
    c.identity r.publicKey = id ∧ r.admittedAt < s.committee.height ∧
      r.eligibleBlocks.toNat ≤ s.committee.height.toNat - 1 - r.admittedAt.toNat := by
  have hv := h.valid
  simp only [validate,bind_eq_ok] at hv
  obtain ⟨_,_,_,_,_,_,_,hrec,_⟩ := hv
  have hre := of_forM hrec (id,r) (OrderedMap.get_eq_some_iff.mp hr)
  simp only [checkRecord,bind_eq_ok,ensure_eq_ok] at hre
  obtain ⟨_,_,hi,ha,he,_⟩ := hre
  exact ⟨hi,ha,he⟩

lemma record_of_roster (h : s.Sound c) {v : VrfValidator} (hv : v ∈ s.committee.roster) :
    ∃ r, s.records.get (v.id c) = some r ∧ r.disqualification = none ∧
      r.publicKey = v.publicKey := by
  obtain ⟨r,hr,hs⟩ := mem_of_mapM h.roster_eq hv
  obtain ⟨hm,hc⟩ := mem_filter.mp hr
  obtain ⟨⟨id,r⟩,he,rfl⟩ := mem_map.mp hm
  simp only [bind_eq_ok,pure_ok_iff] at hs
  obtain ⟨wt,_,rfl⟩ := hs
  have hg := OrderedMap.get_eq_some_iff.mpr he
  obtain ⟨hi,_⟩ := h.checked hg
  exact ⟨r,by rw [VrfValidator.id,hi,hg],by simpa using hc,rfl⟩

lemma record_of_id (h : s.Sound c) (hi : id ∈ s.committee.roster.map (·.id c)) :
    ∃ r, s.records.get id = some r ∧ r.disqualification = none := by
  obtain ⟨v,hv,rfl⟩ := mem_map.mp hi
  obtain ⟨r,hr,hc,_⟩ := h.record_of_roster hv
  exact ⟨r,hr,hc⟩

lemma banned_not_in_roster (h : s.Sound c)
    (hr : s.records.get id = some r) (hb : r.disqualification ≠ none) :
    (∀ v ∈ s.committee.roster, v.id c ≠ id ∧ v.publicKey ≠ r.publicKey) ∧
      id ∉ s.committee.members := by
  have hi : id ∉ s.committee.roster.map (·.id c) := by
    intro hi
    obtain ⟨r',hr',hc⟩ := h.record_of_id hi
    rw [hr,Option.some.injEq] at hr'
    exact hb (hr' ▸ hc)
  refine ⟨fun v hv => ⟨fun heq => hi (heq ▸ mem_map_of_mem hv),fun hk => ?_⟩,
    fun hm => hi (h.members id hm)⟩
  have hs : v.id c = id := by rw [VrfValidator.id,hk,(h.checked hr).1]
  exact hi (hs ▸ mem_map_of_mem hv)

lemma stage (hs : s.stage c par batch = .ok next) : next.Sound c :=
  ⟨(stage_ok hs).valid,(stage_ok hs).members⟩

lemma fromConfiguration {config : PotbConfiguration} {keys : List (Fixed 32)} {start : PotbState}
    (h : PotbState.fromConfiguration c config keys = .ok start) : start.Sound c := by
  simp only [PotbState.fromConfiguration,bind_eq_ok,pure_ok_iff] at h
  obtain ⟨base,hb,_,_,_,_,_,hv,rfl⟩ := h
  simp only [CommitteeState.fromGenesis,bind_eq_ok,pure_ok_iff] at hb
  obtain ⟨_,_,_,_,_,_,_,_,_,_,_,hc,rfl⟩ := hb
  -- binding the namespace leaves roster and seats alone
  have hs := CommitteeState.validate_seats hc
  exact ⟨hv,hs⟩

end Sound

/-- One accepted step: a staged batch, or a handoff that a verifier of this state applies. -/
inductive Advances (c : Suite) (s : PotbState) : PotbState → Prop where
  | staged {parent : Hash256} {batch : PotbBatch} {next : PotbState}
      (h : s.stage c parent batch = .ok next) : Advances c s next
  | applied {v : PotbVerifier} {handoff : PotbHandoff} (hv : v.current = s)
      (h : (v.apply c handoff).1 = .ok ()) : Advances c s (v.apply c handoff).2.current

end PotbState

namespace PotbVerifier

variable {c : Suite} {v : PotbVerifier} {handoff : PotbHandoff}

lemma stage_of_apply (h : (v.apply c handoff).1 = .ok ()) :
    v.current.stage c v.parent handoff.batch = .ok (v.apply c handoff).2.current := by
  unfold apply at h ⊢
  split at h
  · cases h
  · next next hn =>
    simp only [bind_eq_ok,pure_ok_iff] at hn
    obtain ⟨_,_,_,_,staged,hs,_,_,_,_,_,_,rfl⟩ := hn
    exact hs

lemma apply_rejected {e : ConsensusError} (h : (v.apply c handoff).1 = .error e) :
    (v.apply c handoff).2 = v := by
  unfold apply at h ⊢
  split at h
  · rfl
  · cases h

end PotbVerifier

namespace PotbState

variable {c : Suite} {s next later : PotbState}

lemma Advances.exists_stage (h : Advances c s next) :
    ∃ par batch, s.stage c par batch = .ok next := by
  cases h with
  | staged h => exact ⟨_,_,h⟩
  | applied hv h => exact hv ▸ ⟨_,_,PotbVerifier.stage_of_apply h⟩

lemma Sound.of_advances (hs : s.Sound c) (h : Relation.ReflTransGen (Advances c) s next) :
    next.Sound c := by
  induction h with
  | refl => exact hs
  | tail _ hste _ =>
    obtain ⟨_,_,hst⟩ := hste.exists_stage
    exact Sound.stage hst

lemma extends_of_advances (h : Relation.ReflTransGen (Advances c) s next) :
    Extends s.records next.records := by
  induction h with
  | refl => exact .refl _
  | tail _ hst ih =>
    obtain ⟨_,_,hs⟩ := hst.exists_stage
    exact ih.trans (stage_ok hs).records.extended

/-- Along every run of accepted steps from a configuration: the state stays valid, its committed
roster is the one its records weigh out to, no record counts more blocks than there were heights
since its admission, no record is lost, and an offender keeps the offence and is never on a roster
or in a committee again. An accepted batch admits only identities, and keys, that no record has,
and none of them sits in the committee it leads to. A rejected handoff changes nothing. -/
theorem potb_transitions_keep_invariants (c : Suite) (config : PotbConfiguration)
    (keys : List (Fixed 32)) (start : PotbState)
    (hstart : fromConfiguration c config keys = .ok start) (s : PotbState)
    (hs : Relation.ReflTransGen (Advances c) start s) :
    s.validate c = .ok () ∧
    weightedRoster s.policy s.records = .ok s.committee.roster ∧
    (∀ id ∈ s.committee.members, ∃ r, s.records.get id = some r ∧ r.disqualification = none) ∧
    (∀ id r, s.records.get id = some r → r.admittedAt < s.committee.height ∧
      r.eligibleBlocks.toNat ≤ s.committee.height.toNat - 1 - r.admittedAt.toNat) ∧
    (∀ later, Relation.ReflTransGen (Advances c) s later →
      ∀ id r, s.records.get id = some r → ∃ r', later.records.get id = some r' ∧
        r'.publicKey = r.publicKey ∧ r'.admittedAt = r.admittedAt ∧
        (∀ offence, r.disqualification = some offence → r'.disqualification = some offence ∧
          (∀ v ∈ later.committee.roster, v.id c ≠ id ∧ v.publicKey ≠ r.publicKey) ∧
          id ∉ later.committee.members)) ∧
    (∀ parent batch next, s.stage c parent batch = .ok next → ∀ a ∈ batch.admissions,
      s.records.get (a.request.candidate c) = none ∧
      (∀ id r, s.records.get id = some r → r.publicKey ≠ a.request.intent.publicKey) ∧
      next.records.get (a.request.candidate c) = some (admittedRecord s.committee a.request) ∧
      a.request.candidate c ∉ s.committee.members ∧
      a.request.candidate c ∉ next.committee.members) ∧
    (∀ v : PotbVerifier, v.current = s → ∀ handoff,
      ((v.apply c handoff).1 = .ok () →
        s.stage c v.parent handoff.batch = .ok (v.apply c handoff).2.current) ∧
      (∀ e, (v.apply c handoff).1 = .error e → (v.apply c handoff).2 = v)) := by
  have hso : s.Sound c := (Sound.fromConfiguration hstart).of_advances hs
  refine ⟨hso.valid,hso.roster_eq,fun id hi => hso.record_of_id (hso.members id hi),
    fun id r hr => (hso.checked hr).2,?_,?_,?_⟩
  · intro later hl id r hr
    obtain ⟨r',hr',hc⟩ := extends_of_advances hl id r hr
    refine ⟨r',hr',hc.key,hc.admitted,fun offence ho => ?_⟩
    have hb := hc.banned offence ho
    have hou := (hso.of_advances hl).banned_not_in_roster hr' (by simp [hb])
    exact ⟨hb,hc.key ▸ hou.1,hou.2⟩
  · intro parent batch next hst a ha
    have hsta := stage_ok hst
    obtain ⟨hf,hn⟩ := hsta.records.admitted a ha
    -- an identity without a record is on no roster, so neither committee can seat it
    have hro : a.request.candidate c ∉ s.committee.roster.map (·.id c) := by
      intro hm
      obtain ⟨r,hr,_⟩ := hso.record_of_id hm
      rw [hf] at hr
      cases hr
    refine ⟨hf,fun id r hr hk => ?_,hn,fun h => hro (hso.members _ h),
      fun h => hro (hsta.incumbents _ h)⟩
    have hi := (hso.checked hr).1
    rw [hk] at hi
    rw [AdmissionRequest.candidate,hi,hr] at hf
    cases hf
  · rintro v rfl handoff
    exact ⟨PotbVerifier.stage_of_apply,fun e => PotbVerifier.apply_rejected⟩

end PotbState

/-! Two steps from a configuration of two validators: the first admits a third, the second bans the
first for a double vote at height one. -/

namespace TwoSteps

def suite : Suite where
  ed25519Verify _ _ _ := true
  strongKey _ := true
  blake2s := residueHash
  verifyEcvrf _ _ _ := some (Fixed.fill 64 0)
  canonicalProof _ := true

def key (n : UInt8) : Fixed 32 := Fixed.fill 32 n

def id (n : UInt8) : ValidatorId := suite.identity (key n)

def signature : Fixed 64 := Fixed.fill 64 0

def config : PotbConfiguration where
  genesis :=
    { version := 2, chainId := 7, capacity := ⟨1, 1, 1, 1⟩, committeeSize := 2, rotationCount := 1,
      runtimeVersion := 1, validators := [⟨id 1, 100⟩, ⟨id 2, 100⟩], allocations := [] }
  policy := { epochBlocks := 10, initialWeight := 100, ageIncrement := 1, maximumWeight := 1000 }
  governance := none

def output : VrfOutput where
  randomness := domainHash residueHash (ascii "astrolune.vrf.output.v1") (replicate 64 0)
  proof := replicate 80 0

def contributions (ids : List UInt8) : VrfBatch := ⟨ids.map fun n => ⟨id n, output, output⟩⟩

def admission (s : PotbState) (root : Hash256) : AdmissionCertificate :=
  let request : AdmissionRequest :=
    { intent := ⟨7, s.committee.genesis, s.committee.height, id 8, root, key 3⟩,
      consent := signature }
  ⟨request, [⟨request.id suite, id 1, signature⟩, ⟨request.id suite, id 2, signature⟩]⟩

def vote (root : Hash256) (block : Option Hash256) : Vote :=
  ⟨7, root, 1, 0, .precommit, block, id 1, signature⟩

def offence (root : Hash256) : HistoricalEvidence where
  members := [⟨key 1, 100⟩, ⟨key 2, 100⟩]
  history := ⟨1, 1, root, []⟩
  evidence := ⟨vote root none, vote root (some (id 9))⟩

def run : Except ConsensusError PotbState := do
  let start ← PotbState.fromConfiguration suite config [key 1, key 2]
  let context ← start.committee.context suite
  let one ← start.stage suite (id 8)
    ⟨contributions [1, 2], [], [admission start context.root], none⟩
  one.stage suite (id 9) ⟨contributions [1, 2, 3], [offence context.root], [], none⟩

lemma run_bans : ∃ s r, run = .ok s ∧ s.records.get (id 1) = some r ∧
    r.disqualification ≠ none ∧ s.committee.height = 3 := by
  have hru : (match run with
      | .ok s => (s.records.get (id 1)).any fun r => r.disqualification.isSome &&
          s.committee.height = 3
      | .error _ => false) = true := by decide +kernel
  split at hru
  · next s hs =>
    cases hr : s.records.get (id 1) with
    | none => simp [hr] at hru
    | some r =>
      simp only [hr,Option.any_some,Bool.and_eq_true,decide_eq_true_eq] at hru
      exact ⟨s,r,hs,hr,Option.isSome_iff_ne_none.mp hru.1,hru.2⟩
  · cases hru

end TwoSteps

open TwoSteps in
theorem potb_transitions_keep_two_steps : ∃ start s r,
    PotbState.fromConfiguration suite config [key 1, key 2] = .ok start ∧
    Relation.ReflTransGen (PotbState.Advances suite) start s ∧ s.committee.height = 3 ∧
    s.records.get (TwoSteps.id 1) = some r ∧ r.disqualification ≠ none ∧
    s.validate suite = .ok () ∧ TwoSteps.id 1 ∉ s.committee.members := by
  obtain ⟨s,r,hru,hr,hb,hh⟩ := run_bans
  simp only [run,bind_eq_ok] at hru
  obtain ⟨start,hs,_,_,one,hon,ht⟩ := hru
  have hst : Relation.ReflTransGen (PotbState.Advances suite) start s :=
    (Relation.ReflTransGen.single (.staged hon)).tail (.staged ht)
  have hi := PotbState.potb_transitions_keep_invariants suite config [key 1,key 2] start hs s
    hst
  obtain ⟨offence,ho⟩ := Option.ne_none_iff_exists'.mp hb
  obtain ⟨r',_,_,_,hou⟩ := hi.2.2.2.2.1 s .refl (TwoSteps.id 1) r hr
  exact ⟨start,s,r,hs,hst,hh,hr,hb,hi.1,(hou offence ho).2.2⟩

end Astrolune.Consensus
