import Astrolune.Consensus.Permanence

namespace Astrolune.Consensus
open Lib Codec Crypto List

namespace GovernancePolicy

def epochOf (p : GovernancePolicy) (height : Nat) : Nat := (height - 1) / p.epochBlocks.toNat

def IsFirstHeight (p : GovernancePolicy) (height : Nat) : Prop :=
  (height - 1) % p.epochBlocks.toNat = 0

variable {p : GovernancePolicy} {height next : UInt64}

lemma nextEpoch_eq_ok : p.nextEpoch height = .ok next ↔ height ≠ 0 ∧ p.epochBlocks ≠ 0 ∧
      next.toNat = (p.epochOf height.toNat + 1) * p.epochBlocks.toNat + 1 := by
  unfold nextEpoch epochOf
  rw [okOr_eq_ok]
  split
  · next hz =>
    simp only [reduceCtorEq,false_iff]
    rintro ⟨hh,hb,_⟩
    exact hz.elim hh hb
  · next hz =>
    obtain ⟨hh,hb⟩ := not_or.mp hz
    simp only [Option.bind_eq_bind,Option.bind_eq_some_iff,checkedAdd64_eq_some,Option.pure_def]
    constructor
    · rintro ⟨_,⟨rfl,_⟩,hs⟩
      split at hs
      · simp only [Option.bind_some,Option.bind_eq_some_iff,checkedAdd64_eq_some,Option.some.injEq] at hs
        obtain ⟨_,⟨rfl,hf⟩,rfl⟩ := hs
        exact ⟨hh,hb,UInt64.toNat_ofNat_of_lt' hf⟩
      · cases hs
    · rintro ⟨_,_,hn⟩
      have hf : next.toNat < 2 ^ 64 := next.toNat_lt
      have hp : 0 < p.epochBlocks.toNat := Nat.pos_of_ne_zero fun h => hb (UInt64.toNat_inj.mp h)
      have he : (height.toNat - 1) / p.epochBlocks.toNat + 1 ≤
          ((height.toNat - 1) / p.epochBlocks.toNat + 1) * p.epochBlocks.toNat :=
        Nat.le_mul_of_pos_right _ hp
      refine ⟨_,⟨rfl,by omega⟩,?_⟩
      rw [if_pos (by omega)]
      simp only [Option.bind_some,Option.bind_eq_some_iff,checkedAdd64_eq_some,Option.some.injEq]
      exact ⟨_,⟨rfl,by omega⟩,
        UInt64.toNat_inj.mp ((UInt64.toNat_ofNat_of_lt' (hn ▸ hf)).trans hn.symm)⟩

lemma nextEpoch_later (h : p.nextEpoch height = .ok next) :
    height < next ∧ p.IsFirstHeight next.toNat ∧ p.epochOf height.toNat < p.epochOf next.toNat := by
  obtain ⟨_,hb,hn⟩ := nextEpoch_eq_ok.mp h
  have hp : 0 < p.epochBlocks.toNat := Nat.pos_of_ne_zero fun hz => hb (UInt64.toNat_inj.mp hz)
  have hs : next.toNat - 1 = (p.epochOf height.toNat + 1) * p.epochBlocks.toNat := by omega
  refine ⟨UInt64.lt_iff_toNat_lt.mpr ?_,?_,?_⟩
  · have hm : (height.toNat - 1) < (p.epochOf height.toNat + 1) * p.epochBlocks.toNat := by
      rw [epochOf,Nat.mul_comm]
      exact Nat.lt_mul_div_succ _ hp
    omega
  · rw [IsFirstHeight,hs,Nat.mul_mod_left]
  · rw [epochOf,epochOf,hs,Nat.mul_div_cancel _ hp]
    exact Nat.lt_succ_self _

lemma nextEpoch_succ {after : UInt64} (h : p.nextEpoch height = .ok next)
    (haf : after.toNat = height.toNat + 1) (hl : after ≠ next) : p.nextEpoch after = .ok next := by
  obtain ⟨hh,hbl,hne⟩ := nextEpoch_eq_ok.mp h
  have hp : 0 < p.epochBlocks.toNat := Nat.pos_of_ne_zero fun hz => hbl (UInt64.toNat_inj.mp hz)
  have ho : 0 < height.toNat := Nat.pos_of_ne_zero fun hz => hh (UInt64.toNat_inj.mp hz)
  have hn : after.toNat ≠ next.toNat := fun heq => hl (UInt64.toNat_inj.mp heq)
  have hb : height.toNat - 1 < (p.epochOf height.toNat + 1) * p.epochBlocks.toNat := by
    rw [epochOf,Nat.mul_comm]
    exact Nat.lt_mul_div_succ _ hp
  have ha : p.epochOf height.toNat * p.epochBlocks.toNat ≤ height.toNat - 1 := Nat.div_mul_le_self _ _
  have hs : p.epochOf after.toNat = p.epochOf height.toNat := by
    rw [epochOf,Nat.div_eq_iff hp]
    rw [Nat.add_mul] at hb hne
    omega
  refine nextEpoch_eq_ok.mpr ⟨?_,hbl,hs ▸ hne⟩
  rintro rfl
  have hz : (0 : UInt64).toNat = 0 := rfl
  omega

end GovernancePolicy

namespace GovernanceState

variable {c : Suite} {g next : GovernanceState} {cur : CommitteeState} {par : Hash256}
  {certificate : Option GovernanceCertificate}

def requested (certificate : GovernanceCertificate) : NetworkParameters :=
  { capacity := certificate.request.capacity, prices := certificate.request.prices }

lemma validate_eq_ok {height : UInt64} {u : Unit} : g.validate height = .ok u ↔
    g.policy.permits g.active = .ok () ∧ height ≠ 0 ∧ ∀ at_ params, g.pending = some (at_,params) →
        g.policy.permits params = .ok () ∧ g.policy.nextEpoch height = .ok at_ := by
  unfold validate
  simp only [bind_eq_ok,ensure_eq_ok]
  cases g.pending with
  | none =>
    simp only [reduceCtorEq,false_implies,implies_true,and_true]
    constructor
    · rintro ⟨_,ha,_,hh,_⟩
      exact ⟨ha,hh⟩
    · rintro ⟨ha,hh⟩
      exact ⟨(),ha,(),hh,rfl⟩
  | some pending =>
    obtain ⟨at_,params⟩ := pending
    simp only [bind_eq_ok,ensure_eq_ok]
    constructor
    · rintro ⟨_,ha,_,hh,_,hpe,_,_,_,hn,rfl⟩
      exact ⟨ha,hh,fun _ _ hs => by cases hs; exact ⟨hpe,hn⟩⟩
    · rintro ⟨ha,hh,hp⟩
      obtain ⟨hpe,hn⟩ := hp at_ params rfl
      exact ⟨(),ha,(),hh,(),hpe,(),(GovernancePolicy.nextEpoch_later hn).1,at_,hn,rfl⟩

lemma verify_ok {certificate : GovernanceCertificate} {u : Unit}
    (h : certificate.verify c cur par g = .ok u) : g.pending = none ∧
      g.policy.nextEpoch cur.height = .ok certificate.request.activateAt := by
  simp only [GovernanceCertificate.verify,verifyRequest,bind_eq_ok,ensure_eq_ok] at h
  obtain ⟨_,_,_,⟨_,_,_,_,_,⟨hp,_⟩,_,_,_,_,activateAt,hn,_,rfl,_⟩,_⟩ := h
  exact ⟨hp,hn⟩

/-- What waits once the certificate, if there is one, has been accepted at `height`. -/
def Queues (g : GovernanceState) (height : UInt64) :
    Option GovernanceCertificate → Option (UInt64 × NetworkParameters) → Prop
  | none, queued => queued = g.pending
  | some certificate, queued => g.pending = none ∧
      queued = some (certificate.request.activateAt, requested certificate) ∧
      g.policy.nextEpoch height = .ok certificate.request.activateAt

/-- What a successful `stage` does: the update that waits afterwards waited before or was just
accepted, and the one that is due takes effect. -/
lemma stage_ok (h : g.stage c cur par certificate = .ok next) :
    g.validate cur.height = .ok () ∧ next.policy = g.policy ∧
      next.policy.permits next.active = .ok () ∧ cur.height.toNat + 1 < 2 ^ 64 ∧
      ∃ queued : Option (UInt64 × NetworkParameters), g.Queues cur.height certificate queued ∧
        ((queued = some (UInt64.ofNat (cur.height.toNat + 1),next.active) ∧ next.pending = none) ∨
          (next.active = g.active ∧ next.pending = queued)) := by
  simp only [stage,bind_eq_ok,okOr_eq_ok,checkedAdd64_eq_some,pure_ok_iff] at h
  obtain ⟨_,hv,_,⟨rfl,hf⟩,queued,hq,_,hn,rfl⟩ := h
  have ha : ∀ q : GovernanceState, (q.activate (UInt64.ofNat (cur.height.toNat + 1))).policy =
      q.policy ∧ ((q.pending = some (UInt64.ofNat (cur.height.toNat + 1),
          (q.activate (UInt64.ofNat (cur.height.toNat + 1))).active) ∧
        (q.activate (UInt64.ofNat (cur.height.toNat + 1))).pending = none) ∨
      ((q.activate (UInt64.ofNat (cur.height.toNat + 1))).active = q.active ∧
        (q.activate (UInt64.ofNat (cur.height.toNat + 1))).pending = q.pending)) := by
    intro q
    unfold activate
    split
    · exact ⟨rfl,.inr ⟨rfl,rfl⟩⟩
    · next at_ params hp =>
      split
      · next hd =>
        subst hd
        exact ⟨rfl,.inl ⟨hp,rfl⟩⟩
      · exact ⟨rfl,.inr ⟨rfl,rfl⟩⟩
  obtain ⟨hpo,hw⟩ := ha queued
  have hpe := (validate_eq_ok.mp hn).1
  cases certificate with
  | none =>
    cases hq
    exact ⟨hv,hpo,hpe,hf,g.pending,rfl,hw⟩
  | some certificate =>
    simp only [queue,bind_eq_ok,pure_ok_iff] at hq
    obtain ⟨_,hve,rfl⟩ := hq
    obtain ⟨hno,he⟩ := verify_ok hve
    exact ⟨hv,hpo,hpe,hf,_,⟨hno,rfl,he⟩,hw⟩

lemma stage_of_valid (h : g.validate cur.height = .ok ())
    (hf : cur.height.toNat + 1 < 2 ^ 64) : ∃ next, g.stage c cur par none = .ok next := by
  obtain ⟨ha,hh,hp⟩ := validate_eq_ok.mp h
  have hn : (UInt64.ofNat (cur.height.toNat + 1)).toNat = cur.height.toNat + 1 :=
    UInt64.toNat_ofNat_of_lt' hf
  have hv : (g.activate (UInt64.ofNat (cur.height.toNat + 1))).validate
      (UInt64.ofNat (cur.height.toNat + 1)) = .ok () := by
    have hpo : UInt64.ofNat (cur.height.toNat + 1) ≠ 0 := by
      intro hz
      rw [hz] at hn
      exact absurd hn (Nat.succ_ne_zero _).symm
    unfold activate
    split
    · next hno =>
      exact validate_eq_ok.mpr ⟨ha,hpo,fun _ _ hs => by rw [hno] at hs; cases hs⟩
    · next at_ params hs =>
      obtain ⟨hpe,he⟩ := hp at_ params hs
      split
      · exact validate_eq_ok.mpr ⟨hpe,hpo,fun _ _ hno => by cases hno⟩
      · next hd =>
        refine validate_eq_ok.mpr ⟨ha,hpo,fun other value ho => ?_⟩
        obtain ⟨rfl,rfl⟩ : at_ = other ∧ params = value := by
          rw [hs] at ho
          cases ho
          exact ⟨rfl,rfl⟩
        exact ⟨hpe,GovernancePolicy.nextEpoch_succ he hn (Ne.symm hd)⟩
  have had : checkedAdd64 cur.height.toNat 1 = some (cur.height.toNat + 1) := if_pos hf
  refine ⟨g.activate (UInt64.ofNat (cur.height.toNat + 1)),?_⟩
  rw [stage,h,ok_bind,had]
  simp only [okOr,ok_bind,queue,hv,pure_eq_ok]

end GovernanceState

/-- One call of `stage`. -/
structure StageCall where
  current : CommitteeState
  parent : Hash256
  certificate : Option GovernanceCertificate

/-- Successful `stage` calls at consecutive heights. -/
inductive GovernanceRun (c : Suite) (start : GovernanceState) (height : Nat) :
    List StageCall → GovernanceState → Prop
  | nil : GovernanceRun c start height [] start
  | snoc {calls : List StageCall} {g next : GovernanceState} (call : StageCall) :
      GovernanceRun c start height calls g →
      call.current.height.toNat = height + calls.length →
      g.stage c call.current call.parent call.certificate = .ok next →
      GovernanceRun c start height (calls ++ [call]) next

namespace GovernanceRun

variable {c : Suite} {start g : GovernanceState} {height : Nat} {calls : List StageCall}

def Origin (start : GovernanceState) (calls : List StageCall) (at_ : UInt64)
    (value : NetworkParameters) : Prop :=
  start.pending = some (at_, value) ∨
    ∃ call ∈ calls, ∃ certificate, call.certificate = some certificate ∧
      certificate.request.activateAt = at_ ∧ GovernanceState.requested certificate = value ∧
      start.policy.epochOf call.current.height.toNat < start.policy.epochOf at_.toNat

lemma Origin.append {at_ : UInt64} {value : NetworkParameters} (h : Origin start calls at_ value)
    (call : StageCall) : Origin start (calls ++ [call]) at_ value :=
  h.imp_right fun ⟨earlier,he,hr⟩ => ⟨earlier,mem_append_left _ he,hr⟩

lemma policy_eq (h : GovernanceRun c start height calls g) : g.policy = start.policy := by
  induction h with
  | nil => rfl
  | snoc call _ _ hs ih => exact (GovernanceState.stage_ok hs).2.1.trans ih

lemma origin_of_queued (h : GovernanceRun c start height calls g)
    (hp : ∀ at_ value, g.pending = some (at_,value) → Origin start calls at_ value)
    {call : StageCall} {queued : Option (UInt64 × NetworkParameters)}
    (hq : g.Queues call.current.height call.certificate queued)
    {at_ : UInt64} {value : NetworkParameters} (hs : queued = some (at_,value)) :
    Origin start (calls ++ [call]) at_ value := by
  cases hc : call.certificate with
  | none =>
    rw [hc] at hq
    exact (hp at_ value (hq.symm.trans hs)).append call
  | some cert =>
    rw [hc] at hq
    obtain ⟨_,rfl,he⟩ := hq
    cases hs
    have hl := (GovernancePolicy.nextEpoch_later he).2.2
    rw [h.policy_eq] at hl
    exact .inr ⟨call,mem_append_right _ mem_cons_self,cert,hc,rfl,rfl,hl⟩

lemma pending_origin (h : GovernanceRun c start height calls g) :
    ∀ at_ value, g.pending = some (at_,value) → Origin start calls at_ value := by
  induction h with
  | nil => exact fun _ _ hp => .inl hp
  | snoc call hr _ hst ih =>
    intro at_ value hp
    obtain ⟨_,_,_,_,queued,hq,⟨_,hn⟩ | ⟨_,hs⟩⟩ := GovernanceState.stage_ok hst
    · rw [hn] at hp
      cases hp
    · exact hr.origin_of_queued ih hq (hs.symm.trans hp)

end GovernanceRun

/-- Parameters change at the first height of an epoch only, to a value certified before it, within
the bounds of the policy; one update waits at a time, and waiting never blocks the chain. -/
theorem governance_delayed_exclusive (c : Suite) (start : GovernanceState) (height : Nat)
    (calls : List StageCall) (g : GovernanceState) (hrun : GovernanceRun c start height calls g) :
    (∀ call next, call.current.height.toNat = height + calls.length →
      g.stage c call.current call.parent call.certificate = .ok next →
      next.policy = start.policy ∧ start.policy.permits g.active = .ok () ∧
      start.policy.permits next.active = .ok () ∧
      (next.active ≠ g.active → start.policy.IsFirstHeight (height + calls.length + 1) ∧
        GovernanceRun.Origin start (calls ++ [call]) (UInt64.ofNat (height + calls.length + 1))
          next.active)) ∧
    (g.pending ≠ none → ∀ current parent certificate next,
      g.stage c current parent (some certificate) ≠ .ok next) ∧
    ∀ current parent, g.validate current.height = .ok () → current.height.toNat + 1 < 2 ^ 64 →
      ∃ next, g.stage c current parent none = .ok next := by
  refine ⟨fun call next hh hst => ?_,fun hp current parent certificate next hst => ?_,
    fun current parent => GovernanceState.stage_of_valid⟩
  · obtain ⟨hv,hpo,hpe,hfi,queued,hq,hw⟩ := GovernanceState.stage_ok hst
    have hs := hrun.policy_eq
    have ha := (GovernanceState.validate_eq_ok.mp hv).1
    refine ⟨hpo.trans hs,hs ▸ ha,(hpo.trans hs) ▸ hpe,fun hch => ?_⟩
    obtain ⟨hd,_⟩ := hw.resolve_right fun hk => hch hk.1
    rw [hh] at hd
    have ho := hrun.origin_of_queued hrun.pending_origin hq hd
    refine ⟨?_,ho⟩
    -- Whatever was queued is due at the first height of the epoch after the current one.
    have hn : g.policy.nextEpoch call.current.height =
        .ok (UInt64.ofNat (height + calls.length + 1)) := by
      cases hc : call.certificate with
      | none =>
        rw [hc] at hq
        exact ((GovernanceState.validate_eq_ok.mp hv).2.2 _ _ (hq.symm.trans hd)).2
      | some certificate =>
        rw [hc] at hq
        obtain ⟨_,rfl,he⟩ := hq
        obtain ⟨hat,_⟩ := Prod.mk.inj (Option.some.inj hd)
        exact hat ▸ he
    have hf := (GovernancePolicy.nextEpoch_later hn).2.1
    rwa [hs,UInt64.toNat_ofNat_of_lt' (hh ▸ hfi)] at hf
  · obtain ⟨_,_,_,_,_,⟨hno,_⟩,_⟩ := GovernanceState.stage_ok hst
    exact hp hno

namespace TwoBlockEpoch
open TwoSteps

def lower : NetworkParameters := ⟨governanceCapacityFloor, ⟨0, 0, 0, 0⟩⟩

def higher : NetworkParameters := ⟨governanceCapacityFloor, ⟨1, 1, 1, 1⟩⟩

def start : GovernanceState where
  policy := ⟨2, governanceCapacityFloor, governanceCapacityFloor, ⟨1, 1, 1, 1⟩⟩
  active := lower
  pending := none

def committeeAt (height : UInt64) : CommitteeState where
  chainId := 7
  genesis := id 9
  height := height
  randomness := Hash256.zero
  capacity := governanceCapacityFloor
  targetSize := 1
  rotationCount := 1
  roster := [⟨key 1, 1⟩]
  members := [id 1]
  producer := id 1

def intent (root : Hash256) : GovernanceIntent :=
  ⟨7, id 9, 1, id 8, root, 3, higher.capacity, higher.prices⟩

def certificate : GovernanceCertificate :=
  let request := intent (domainHash residueHash (ascii "astrolune.committee.v1")
    (((committeeAt 1).committee suite).commitmentBytes 7))
  ⟨request, [⟨request.id residueHash, id 1, signature⟩]⟩

def accepting : StageCall := ⟨committeeAt 1, id 8, some certificate⟩

def boundary : StageCall := ⟨committeeAt 2, id 8, none⟩

end TwoBlockEpoch

open TwoBlockEpoch in
/-- A certificate of height one takes effect at height three, where the second epoch begins. -/
theorem governance_delayed_two_block_epoch : start.policy.IsFirstHeight 3 ∧
    GovernanceRun.Origin start [accepting, boundary] 3 higher := by
  have ha : start.stage TwoSteps.suite accepting.current accepting.parent accepting.certificate =
      .ok { start with pending := some (3,higher) } := by decide +kernel
  have hb : GovernanceState.stage TwoSteps.suite { start with pending := some (3,higher) }
      boundary.current boundary.parent boundary.certificate = .ok { start with active := higher } := by
    decide +kernel
  have hr : GovernanceRun TwoSteps.suite start 1 [accepting] { start with pending := some (3,higher) } :=
    .snoc accepting .nil rfl ha
  exact ((governance_delayed_exclusive TwoSteps.suite start 1 [accepting] _ hr).1 boundary _ rfl
    hb).2.2.2 (by decide)

end Astrolune.Consensus
