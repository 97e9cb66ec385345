import Astrolune.Consensus.GovernanceRun
import Astrolune.Lib.Run
import Astrolune.Lib.Unordered

namespace Astrolune.Consensus
open Lib Codec Crypto List Function

section Sorted

variable {c : Suite} {α : Type} {l l' : List α} {f : α → ValidatorId}

variable {r : α → α → Prop}

lemma ascending_sort_iff [DecidableRel r] (hr : ∀ a b, r a b ↔ f a ≤ f b) :
    ascending ((l.insertionSort r).map f) = true ↔ (l.map f).Nodup :=
  ascending_iff.trans (sort_ascending_iff hr)

lemma sort_cases [DecidableRel r] (hr : ∀ a b, r a b ↔ f a ≤ f b) (h : l.Perm l') :
    l.insertionSort r = l'.insertionSort r ∨ ascending ((l.insertionSort r).map f) = false ∧
      ascending ((l'.insertionSort r).map f) = false := by
  by_cases hno : (l.map f).Nodup
  · exact .inl (sort_eq_of_perm hr h hno)
  · have hn' : ¬(l'.map f).Nodup := fun hn => hno ((h.map f).nodup_iff.mpr hn)
    refine .inr ⟨?_,?_⟩
    · exact Bool.eq_false_iff.mpr fun h => hno ((ascending_sort_iff hr).mp h)
    · exact Bool.eq_false_iff.mpr fun h => hn' ((ascending_sort_iff hr).mp h)

lemma sort_ne_nil [DecidableRel r] : l.insertionSort r ≠ [] ↔ l ≠ [] := by
  rw [← length_pos_iff,← length_pos_iff,length_insertionSort]

lemma VrfBatch.new_perm {es entries' : List VrfContribution} (h : es.Perm entries') :
    VrfBatch.new es = VrfBatch.new entries' := by
  have hn : es ≠ [] ↔ entries' ≠ [] := by rw [← length_pos_iff,← length_pos_iff,h.length_eq]
  unfold VrfBatch.new VrfBatch.validateShape
  rcases sort_cases (fun _ _ => Iff.rfl) h with hs | ⟨ho,ht⟩
  · rw [hs,h.length_eq]
  · simp only [ho,ht,Bool.false_eq_true,false_and,sort_ne_nil,length_insertionSort,h.length_eq, hn]
    cases hf : (ensure DecodeError.limitExceeded
      (entries' ≠ [] ∧ entries'.length ≤ maxRotationValidators) : Except DecodeError Unit) <;> rfl

lemma PotbBatch.new_perm {contributions : VrfBatch} {evidence evidence' : List HistoricalEvidence}
    {admissions admissions' : List AdmissionCertificate} (he : evidence.Perm evidence')
    (ha : admissions.Perm admissions') :
    PotbBatch.new c contributions evidence admissions = PotbBatch.new c contributions evidence' admissions' := by
  unfold PotbBatch.new PotbBatch.validateOrder
  rcases sort_cases (fun _ _ => Iff.rfl) he with hev | ⟨ho,ht⟩
  · rcases sort_cases (fun _ _ => Iff.rfl) ha with had | ⟨ho,ht⟩
    · rw [hev,had,he.length_eq,ha.length_eq]
    · simp only [ho,ht,Bool.false_eq_true,and_false,length_insertionSort,he.length_eq, ha.length_eq]
      cases hf : (ensure DecodeError.limitExceeded (evidence'.length ≤ maxRotationValidators ∧
        admissions'.length ≤ maxRotationValidators) : Except DecodeError Unit) <;> rfl
  · simp only [ho,ht,Bool.false_eq_true,false_and,length_insertionSort,he.length_eq, ha.length_eq]
    cases hf : (ensure DecodeError.limitExceeded (evidence'.length ≤ maxRotationValidators ∧
      admissions'.length ≤ maxRotationValidators) : Except DecodeError Unit) <;> rfl

lemma AdmissionCertificate.assemble_perm {req : AdmissionRequest} {approvals approvals' : List Approval}
    {cur : CommitteeState} {par : Hash256} (h : approvals.Perm approvals') :
    assemble c req approvals cur par = assemble c req approvals' cur par := by
  have hr : ∀ {sorted : List Approval}, ascending (sorted.map (·.voter)) = false →
      AdmissionCertificate.verify c ⟨req,sorted⟩ cur par = .error .invalidCertificate := by
    intro sorted hf
    cases hs : AdmissionCertificate.validateShape c ⟨req,sorted⟩ with
    | error e => rw [AdmissionCertificate.verify,hs,failAs_error]; rfl
    | ok u =>
      simp only [AdmissionCertificate.validateShape,bind_eq_ok,ensure_eq_ok,hf] at hs
      obtain ⟨_,_,_,_,ha,_⟩ := hs
      cases ha
  unfold assemble
  rcases sort_cases (fun _ _ => Iff.rfl) h with hso | ⟨ho,ht⟩
  · rw [hso,h.length_eq]
  · simp only [hr ho,hr ht,h.length_eq]
    rfl

end Sorted

namespace ContributionPool

variable {c : Suite} {cur : CommitteeState} {l l' : List VrfContribution}

def collect (c : Suite) (current : CommitteeState) (l : List VrfContribution) : ContributionPool :=
  runs (fun p e => (p.insert c e).2) (new current) l

def Single (c : Suite) (current : CommitteeState) (l : List VrfContribution) : Prop :=
  ∀ e ∈ l, ∀ e' ∈ l, e.verify c current = .ok () → e'.verify c current = .ok () →
    e.validator = e'.validator → e = e'

def Gathered (c : Suite) (current : CommitteeState) (l : List VrfContribution) (p : ContributionPool) : Prop :=
  p.current = current ∧ ∀ id e, p.entries.get id = some e ↔
    e ∈ l ∧ e.verify c current = .ok () ∧ e.validator = id

lemma Gathered.insert {p : ContributionPool} {e : VrfContribution} (hp : Gathered c cur l p)
    (hsi : Single c cur (l ++ [e])) : Gathered c cur (l ++ [e]) (p.insert c e).2 := by
  obtain ⟨rfl,hg⟩ := hp
  -- what the pool holds stays, and only the new contribution may join
  have hk : ∀ {q : ContributionPool}, q = p → (e.verify c p.current = .ok () →
      p.entries.get e.validator = some e) → Gathered c p.current (l ++ [e]) q := by
    rintro _ rfl hh
    refine ⟨rfl,fun id e' => ?_⟩
    rw [hg,mem_append,mem_singleton]
    constructor
    · exact And.imp_left .inl
    · rintro ⟨hm | rfl,hve,rfl⟩
      · exact ⟨hm,hve,rfl⟩
      · exact (hg _ _).mp (hh hve)
  unfold ContributionPool.insert
  split
  · next hh => exact hk rfl fun _ => hh
  split
  · next why hve => exact hk rfl fun ho => by rw [hve] at ho; cases ho
  · next hve =>
    split
    · next hot =>
      obtain ⟨other,hot⟩ := Option.isSome_iff_exists.mp hot
      refine hk rfl fun _ => ?_
      obtain ⟨hm,hv,hs⟩ := (hg _ _).mp hot
      rw [hot,hsi other (mem_append_left _ hm) e (by simp) hv hve hs]
    · next hn =>
      rw [Option.not_isSome_iff_eq_none] at hn
      refine ⟨rfl,fun id e' => ?_⟩
      rw [OrderedMap.get_insert,mem_append,mem_singleton]
      split_ifs with hi
      · subst hi
        constructor
        · rintro ⟨⟩
          exact ⟨.inr rfl,hve,rfl⟩
        · rintro ⟨hm | rfl,hv,hs⟩
          · have hh := (hg _ _).mpr ⟨hm,hv,hs⟩
            rw [hn] at hh
            cases hh
          · rfl
      · rw [hg]
        constructor
        · exact And.imp_left .inl
        · rintro ⟨hm | rfl,hv,hs⟩
          · exact ⟨hm,hv,hs⟩
          · exact absurd hs.symm hi

lemma gathered_collect (hs : Single c cur l) : Gathered c cur l (collect c cur l) := by
  induction l using reverseRecOn with
  | nil => exact ⟨rfl,fun id e => by simp [collect,runs,new]⟩
  | append_singleton l e ih =>
    have hf : Single c cur l := fun a ha b hb =>
      hs a (mem_append_left _ ha) b (mem_append_left _ hb)
    have hn := (ih hf).insert hs
    rw [collect,runs,foldl_append]
    exact hn

lemma collect_congr (hs : Single c cur l) (h : ∀ e, e ∈ l ↔ e ∈ l') :
    collect c cur l = collect c cur l' := by
  have hs' : Single c cur l' := fun a ha b hb => hs a ((h a).mpr ha) b ((h b).mpr hb)
  obtain ⟨hc,hg⟩ := gathered_collect hs
  obtain ⟨hc',hg'⟩ := gathered_collect hs'
  have he : (collect c cur l).entries = (collect c cur l').entries := by
    refine OrderedMap.ext_get fun id => Option.ext fun e => ?_
    rw [hg,hg',h]
  generalize collect c cur l = p at *
  generalize collect c cur l' = q at *
  cases p
  cases q
  simp_all

end ContributionPool

structure ValidatorBehavior where
  eligibleBlocks : UInt64
  certificateMentions : UInt64
  disqualification : Option Hash256

def ValidatorBehavior.disqualify (r : ValidatorBehavior) (id : Hash256) : ValidatorBehavior :=
  { r with disqualification := some (r.disqualification.elim id (min · id)) }

@[ext] structure PotbTracker where
  chainId : UInt32
  height : UInt64
  validators : OrderedMap ValidatorId ValidatorBehavior

namespace PotbTracker

variable (c : Suite)

def observeEvidence (t : PotbTracker) (context : AuthenticatedCommittee) (evidence : DoubleVoteEvidence) :
    Except ConsensusError Bool × PotbTracker :=
  let checked : Except ConsensusError ValidatorBehavior := do
    ensure .invalidTransition (context.chainId = t.chainId ∧ ¬t.height < evidence.height)
    evidence.verify c context
    okOr .unknownVoter (t.validators.get evidence.voter)
  match checked with
  | .error e => (.error e, t)
  | .ok record =>
    let next := record.disqualify (evidence.offenceId c.blake2s)
    (.ok (record.disqualification ≠ next.disqualification),
      { t with validators := t.validators.insert evidence.voter next })

def observe (t : PotbTracker) (report : AuthenticatedCommittee × DoubleVoteEvidence) : PotbTracker :=
  (t.observeEvidence c report.1 report.2).2

def Valid (t : PotbTracker) (report : AuthenticatedCommittee × DoubleVoteEvidence) : Prop :=
  (report.1.chainId = t.chainId ∧ ¬t.height < report.2.height) ∧ report.2.verify c report.1 = .ok ()

variable {c} {t : PotbTracker} {a b : AuthenticatedCommittee × DoubleVoteEvidence}

lemma observe_of_ok {rec : ValidatorBehavior} (hv : Valid c t a)
    (hg : t.validators.get a.2.voter = some rec) : observe c t a =
      { t with validators := t.validators.insert a.2.voter (rec.disqualify (a.2.offenceId c.blake2s)) } := by
  simp only [observe,observeEvidence,ensure_of hv.1,hv.2,hg,ok_bind,okOr]

lemma observe_of_not (h : ¬(Valid c t a ∧ (t.validators.get a.2.voter).isSome)) : observe c t a = t := by
  unfold observe observeEvidence
  dsimp only
  split
  · rfl
  · next rec hc =>
    simp only [bind_eq_ok,ensure_eq_ok,okOr_eq_ok] at hc
    obtain ⟨_,hp,_,hv,hg⟩ := hc
    exact absurd ⟨⟨hp,hv⟩,by rw [hg]; rfl⟩ h

open Classical in
lemma get_observe (id : ValidatorId) : (observe c t a).validators.get id =
    (t.validators.get id).map fun r =>
      if Valid c t a ∧ a.2.voter = id then r.disqualify (a.2.offenceId c.blake2s) else r := by
  by_cases h : Valid c t a ∧ (t.validators.get a.2.voter).isSome
  · obtain ⟨rec,hg⟩ := Option.isSome_iff_exists.mp h.2
    rw [observe_of_ok h.1 hg,OrderedMap.get_insert]
    by_cases hi : a.2.voter = id
    · subst hi
      simp [hg,h.1]
    · simp [hi,Ne.symm hi]
  · rw [observe_of_not h]
    cases hg : t.validators.get id with
    | none => rfl
    | some r =>
      have hn : ¬(Valid c t a ∧ a.2.voter = id) := by
        rintro ⟨hv,rfl⟩
        exact h ⟨hv,by rw [hg]; rfl⟩
      rw [Option.map_some,if_neg hn]

lemma observe_fixed : (observe c t a).chainId = t.chainId ∧ (observe c t a).height = t.height := by
  by_cases h : Valid c t a ∧ (t.validators.get a.2.voter).isSome
  · obtain ⟨rec,hg⟩ := Option.isSome_iff_exists.mp h.2
    rw [observe_of_ok h.1 hg]
    exact ⟨rfl,rfl⟩
  · rw [observe_of_not h]
    exact ⟨rfl,rfl⟩

lemma valid_observe : Valid c (observe c t a) b ↔ Valid c t b := by
  rw [Valid,observe_fixed.1,observe_fixed.2]
  rfl

lemma disqualify_comm (r : ValidatorBehavior) (x y : Hash256) :
    (r.disqualify x).disqualify y = (r.disqualify y).disqualify x := by
  cases hr : r.disqualification with
  | none => simp [ValidatorBehavior.disqualify,hr,min_comm]
  | some old => simp [ValidatorBehavior.disqualify,hr,min_right_comm]

lemma disqualify_again (r : ValidatorBehavior) (x : Hash256) :
    (r.disqualify x).disqualify x = r.disqualify x := by
  cases hr : r.disqualification with
  | none => simp [ValidatorBehavior.disqualify,hr]
  | some old => simp [ValidatorBehavior.disqualify,hr]

lemma unordered_observe (c : Suite) : Unordered (observe c) where
  comm t a b := by
    classical
    refine PotbTracker.ext ?_ ?_ (OrderedMap.ext_get fun id => ?_)
    · rw [observe_fixed.1,observe_fixed.1,observe_fixed.1,observe_fixed.1]
    · rw [observe_fixed.2,observe_fixed.2,observe_fixed.2,observe_fixed.2]
    · rw [get_observe,get_observe,get_observe,get_observe,Option.map_map,Option.map_map]
      refine congrArg (Option.map · _) (funext fun r => ?_)
      simp only [comp_apply,valid_observe]
      split_ifs <;> first | rfl | exact disqualify_comm r _ _
  again t a := by
    classical
    refine PotbTracker.ext ?_ ?_ (OrderedMap.ext_get fun id => ?_)
    · rw [observe_fixed.1]
    · rw [observe_fixed.2]
    · rw [get_observe,get_observe,Option.map_map]
      refine congrArg (Option.map · _) (funext fun r => ?_)
      simp only [comp_apply,valid_observe]
      split_ifs
      · exact disqualify_again r _
      · rfl

end PotbTracker

/-- The order of arrival shows in no batch and in no record of offences. A pool has to be given one
verified contribution of a validator, since it keeps the first of several. -/
theorem batch_formation_unordered (c : Suite) :
    (∀ entries entries' : List VrfContribution, entries.Perm entries' →
      VrfBatch.new entries = VrfBatch.new entries') ∧
    (∀ contributions evidence evidence' admissions admissions', evidence.Perm evidence' →
      admissions.Perm admissions' → PotbBatch.new c contributions evidence admissions =
        PotbBatch.new c contributions evidence' admissions') ∧
    (∀ request approvals approvals' current parent, approvals.Perm approvals' →
      AdmissionCertificate.assemble c request approvals current parent =
        AdmissionCertificate.assemble c request approvals' current parent) ∧
    (∀ current l l', ContributionPool.Single c current l → (∀ e, e ∈ l ↔ e ∈ l') →
      (ContributionPool.collect c current l).complete = (ContributionPool.collect c current l').complete) ∧
    (∀ (t : PotbTracker) reports reports', (∀ report, report ∈ reports ↔ report ∈ reports') →
      runs (PotbTracker.observe c) t reports = runs (PotbTracker.observe c) t reports') :=
  ⟨fun _ _ => VrfBatch.new_perm,fun _ _ _ _ _ => PotbBatch.new_perm,
    fun _ _ _ _ _ => AdmissionCertificate.assemble_perm,
    fun _ _ _ hsingle h => congrArg ContributionPool.complete (ContributionPool.collect_congr hsingle h),
    fun t _ _ h => (PotbTracker.unordered_observe c).foldl_eq t h⟩

open TwoSteps TwoBlockEpoch in
theorem batch_formation_unordered_replay : ∃ (current : CommitteeState) (l l' : List VrfContribution),
    l' ≠ l ∧ l'.length = 3 ∧ ContributionPool.Single suite current l ∧ (∀ e, e ∈ l ↔ e ∈ l') ∧
    (ContributionPool.collect suite current l).complete = .ok ⟨l⟩ ∧
    (ContributionPool.collect suite current l').complete = .ok ⟨l⟩ := by
  have hm : ∀ a b e : VrfContribution, e ∈ [a,b] ↔ e ∈ [b,a,b] := by
    intro a b e
    simp only [mem_cons,not_mem_nil,or_false]
    tauto
  let current : CommitteeState := { committeeAt 1 with
    targetSize := 2, roster := [⟨key 1,1⟩,⟨key 2,1⟩], members := [TwoSteps.id 1,TwoSteps.id 2] }
  have hs : ContributionPool.Single suite current (contributions [1,2]).entries := by
    unfold ContributionPool.Single
    decide +kernel
  have hc : (ContributionPool.collect suite current (contributions [1,2]).entries).complete =
      .ok ⟨(contributions [1,2]).entries⟩ := by decide +kernel
  exact ⟨current,_,(contributions [2,1,2]).entries,by decide +kernel,rfl,hs,hm _ _,hc,
    ((batch_formation_unordered suite).2.2.2.1 current _ _ hs (hm _ _)).symm.trans hc⟩

open TwoSteps TwoBlockEpoch in
/-- A prover is free in its choice of a nonce, so two proofs of one validator may verify. The pool
keeps the one that came first. -/
theorem contribution_pool_keeps_first : ∃ (c : Suite) (current : CommitteeState) (e e' : VrfContribution),
    e ≠ e' ∧ (ContributionPool.collect c current [e, e']).complete = .ok ⟨[e]⟩ ∧
      (ContributionPool.collect c current [e', e]).complete = .ok ⟨[e']⟩ := by
  let output (n : UInt8) : VrfOutput :=
    { randomness := domainHash residueHash (ascii "astrolune.vrf.output.v1") (Fixed.fill 64 0).1
      proof := replicate 80 n }
  let entry (n : UInt8) : VrfContribution := ⟨TwoSteps.id 1,output n,output n⟩
  exact ⟨suite,committeeAt 1,entry 0,entry 1,by decide +kernel,by decide +kernel,
    by decide +kernel⟩

end Astrolune.Consensus
