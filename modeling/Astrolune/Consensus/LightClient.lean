import Astrolune.Consensus.Handoff
import Astrolune.Consensus.Permanence
import Astrolune.Lib.Follow

namespace Astrolune.Consensus
open Lib Crypto State

lemma CommitteeState.eq_of_toBytes {c : Suite} {s s' : CommitteeState} {bs : Bytes}
    (h : s.toBytes c = .ok bs)
    (h' : s'.toBytes c = .ok bs) : s = s' := by
  have hd : ∀ {s : CommitteeState}, s.toBytes c = .ok bs → fromBytes c bs = .ok s := fun h =>
    fromBytes_eq_ok.mpr ((writes _ _).mp h)
  exact Except.ok.inj ((hd h).symm.trans (hd h'))

namespace HandoffVerifier

variable {c : Suite} {v : HandoffVerifier} {h h' : CommitteeHandoff}

lemma steady (c : Suite) : Steady (apply c) := by
  intro v h e he
  unfold apply at he ⊢
  split at he
  · rfl
  · cases he

/-- What an accepted handoff has shown. -/
lemma shown_of_apply (ho : (v.apply c h).1 = .ok ()) : v.verifyHeader c h.header h.certificate = .ok () ∧
    ∃ next bs hist context, next.toBytes c = .ok bs ∧ v.current.context c = .ok context ∧
      v.history.tryAppend c.blake2s context = .ok hist ∧
      h.nextState.verify c.blake2s h.header.stateRoot committeeStateKey = .ok (some bs) ∧
      (v.apply c h).2 = ⟨next,h.header.computeHash c.blake2s,hist⟩ := by
  unfold apply at ho ⊢
  cases hc : v.check c h with
  | error e => rw [hc] at ho; cases ho
  | ok next =>
    simp only [check,bind_eq_ok,failAs_eq_ok,ensure_eq_ok,pure_ok_iff] at hc
    obtain ⟨_,_,_,hv,next,_,bs,hb,_,hp,_,rfl,context,hx,hist,hh,rfl⟩ := hc
    exact ⟨hv,next,bs,hist,context,hb,hx,hh,hp,rfl⟩

/-- Two handoffs that the trusted committee has certified though they contradict each other: their
headers differ, or two values are proved under the one state root. -/
def Contradict (c : Suite) (v : HandoffVerifier) (h h' : CommitteeHandoff) : Prop :=
  (v.verifyHeader c h.header h.certificate = .ok () ∧ v.verifyHeader c h'.header h'.certificate = .ok ()) ∧
    (h.header ≠ h'.header ∨ ∃ x y, x ≠ y ∧
      h.nextState.verify c.blake2s h.header.stateRoot committeeStateKey = .ok (some x) ∧
      h'.nextState.verify c.blake2s h.header.stateRoot committeeStateKey = .ok (some y))

lemma contradict_of_apply (ho : (v.apply c h).1 = .ok ()) (ho' : (v.apply c h').1 = .ok ())
    (hne : (v.apply c h).2 ≠ (v.apply c h').2) : Contradict c v h h' := by
  obtain ⟨hv,next,bs,hist,context,hb,hx,hh,hs,ha⟩ := shown_of_apply ho
  obtain ⟨hv',next',bs',hist',context',hb',hx',hh',hs',ha'⟩ := shown_of_apply ho'
  refine ⟨⟨hv,hv'⟩,?_⟩
  by_cases hd : h.header = h'.header
  · rw [← hd] at hs' ha'
    refine .inr ⟨bs,bs',?_,hs,hs'⟩
    rintro rfl
    cases hx.symm.trans hx'
    cases hh.symm.trans hh'
    cases CommitteeState.eq_of_toBytes hb hb'
    exact hne (ha.trans ha'.symm)
  · exact .inl hd

/-- Two light clients that start from the same trust and accept equally many handoffs trust the
same, unless two of the handoffs that they were shown contradict each other at a point where both
trusted the same. -/
theorem light_clients_agree (c : Suite) (v : HandoffVerifier) (xs ys : List CommitteeHandoff) :
    (follow (apply c) v xs).1 ≠ (follow (apply c) v ys).1 ∨
    (follow (apply c) v xs).2 = (follow (apply c) v ys).2 ∨
    ∃ front h front' h', front ++ [h] <+: xs ∧ front' ++ [h'] <+: ys ∧
      (follow (apply c) v front').2 = (follow (apply c) v front).2 ∧
      Contradict c (follow (apply c) v front).2 h h' := by
  by_cases hn : (follow (apply c) v xs).1 = (follow (apply c) v ys).1
  · refine .inr ((agree_or_fork (steady c) hn).imp_right ?_)
    rintro ⟨front,h,front',h',hp,hp',hr,⟨ho,ho'⟩,hne⟩
    exact ⟨front,h,front',h',hp,hp',hr,contradict_of_apply ho ho' hne⟩
  · exact .inl hn

namespace TwoClients
open TwoSteps

/-- A handoff of the committee of two, which certifies a capacity and what the receipts are. -/
def handoff (compute : UInt64) (receipts : Hash256) :
    Except ConsensusError (HandoffVerifier × CommitteeHandoff) := do
  let v ← HandoffVerifier.new suite config.genesis [key 1, key 2]
  let context ← v.current.context suite
  let next ← v.current.transition suite (contributions [1, 2])
  let bytes ← failAs .invalidProof (next.toBytes suite)
  let header : BlockHeader :=
    { height := 1, parent := v.parent, transactionsRoot := Hash256.zero,
      stateRoot := rootHash residueHash 1 (leafHash residueHash committeeStateKey bytes),
      receiptsRoot := receipts, committeeRoot := context.root, capacity := ⟨compute, 1, 1, 1⟩ }
  let certificate : FinalityCertificate :=
    ⟨7, 1, 0, context.root, header.computeHash residueHash,
      (contributions [1, 2]).entries.map fun e => ⟨e.validator, signature⟩⟩
  return (v, ⟨header, certificate, contributions [1, 2],
    .present ⟨committeeStateKey, bytes, ⟨0, 1, []⟩⟩⟩)

def counts (v : HandoffVerifier) (xs ys : List CommitteeHandoff) : Bool :=
  (follow (apply suite) v xs).1 = 1 && (follow (apply suite) v ys).1 = 1 &&
    (follow (apply suite) v xs).2 ≠ (follow (apply suite) v ys).2

end TwoClients

open TwoClients in
/-- The committee certifies two blocks. One client refuses a handoff with another capacity first,
and sees its own block twice. -/
theorem light_clients_agree_forked : ∃ v xs ys, xs.length = 1 ∧ ys.length = 3 ∧
    (follow (apply TwoSteps.suite) v xs).1 = 1 ∧ (follow (apply TwoSteps.suite) v ys).1 = 1 ∧
    ∃ front h front' h', front ++ [h] <+: xs ∧ front' ++ [h'] <+: ys ∧
      (follow (apply TwoSteps.suite) v front').2 = (follow (apply TwoSteps.suite) v front).2 ∧
      Contradict TwoSteps.suite (follow (apply TwoSteps.suite) v front).2 h h' := by
  have hd : ((handoff 1 Hash256.zero).toOption.any fun a => (handoff 2 Hash256.zero).toOption.any fun b =>
      (handoff 1 (TwoSteps.id 1)).toOption.any fun c => counts a.1 [a.2] [b.2,c.2,c.2]) = true := by
    decide +kernel
  obtain ⟨⟨v,h⟩,-,hd⟩ := (Option.any_eq_true _ _).mp hd
  obtain ⟨⟨_,g⟩,-,hd⟩ := (Option.any_eq_true _ _).mp hd
  obtain ⟨⟨_,h'⟩,-,hd⟩ := (Option.any_eq_true _ _).mp hd
  simp only [counts,Bool.and_eq_true,decide_eq_true_eq] at hd
  obtain ⟨⟨hx,hy⟩,hne⟩ := hd
  have ha := light_clients_agree TwoSteps.suite v [h] [g,h',h']
  exact ⟨v,[h],[g,h',h'],rfl,rfl,hx,hy,
    (ha.resolve_left fun hn => hn (hx.trans hy.symm)).resolve_left hne⟩

end HandoffVerifier
end Astrolune.Consensus
