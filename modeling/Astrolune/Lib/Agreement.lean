import Mathlib.Algebra.BigOperators.Group.Finset.Basic
import Mathlib.Algebra.Order.BigOperators.Group.Finset
import Mathlib.Tactic.Linarith

namespace Astrolune.Lib

section
variable {V : Type} [DecidableEq V] {power : V → ℕ} {ms a b : Finset V} {quorum : ℕ}

lemma quorums_overlap (ha : a ⊆ ms) (hb : b ⊆ ms)
    (hq : quorum ≤ ∑ v ∈ a, power v) (hqb : quorum ≤ ∑ v ∈ b, power v) :
    2 * quorum ≤ ∑ v ∈ ms, power v + ∑ v ∈ a ∩ b, power v := by
  have hs : ∑ v ∈ a ∪ b, power v + ∑ v ∈ a ∩ b, power v =
      ∑ v ∈ a, power v + ∑ v ∈ b, power v := Finset.sum_union_inter
  have hl : ∑ v ∈ a ∪ b, power v ≤ ∑ v ∈ ms, power v :=
    Finset.sum_le_sum_of_subset (Finset.union_subset ha hb)
  omega

lemma quorums_share_honest {honest : V → Prop} [DecidablePred honest]
    (ha : a ⊆ ms) (hb : b ⊆ ms)
    (hq : quorum ≤ ∑ v ∈ a, power v) (hqb : quorum ≤ ∑ v ∈ b, power v)
    (hli : ∑ v ∈ ms with ¬honest v, power v < 2 * quorum - ∑ v ∈ ms, power v) :
    ∃ v ∈ a, v ∈ b ∧ honest v := by
  by_contra hn
  have hs : a ∩ b ⊆ ms.filter fun v => ¬honest v := by
    intro v hv
    obtain ⟨hva,hvb⟩ := Finset.mem_inter.mp hv
    exact Finset.mem_filter.mpr ⟨ha hva,fun hh => hn ⟨v,hva,hvb,hh⟩⟩
  have hl := Finset.sum_le_sum_of_subset hs (f := power)
  have ho := quorums_overlap ha hb hq hqb
  omega

end

structure Voting (V B : Type) where
  honest : V → Prop
  quorum : Finset V → Prop
  prevoted : V → ℕ → B → Prop
  precommitted : V → ℕ → B → Prop

namespace Voting
variable {V B : Type} (p : Voting V B)

def Supported (round : ℕ) (value : B) : Prop :=
  ∃ s, p.quorum s ∧ ∀ v ∈ s, p.honest v → p.prevoted v round value

def Decided (round : ℕ) (value : B) : Prop :=
  ∃ s, p.quorum s ∧ ∀ v ∈ s, p.honest v → p.precommitted v round value

/-- The rules of the honest voters. A voter that precommitted a value prevotes another one only
for a support that formed in between. -/
structure Locking : Prop where
  overlap : ∀ s t, p.quorum s → p.quorum t → ∃ v ∈ s, v ∈ t ∧ p.honest v
  unique : ∀ v, p.honest v → ∀ round a b, p.prevoted v round a → p.prevoted v round b → a = b
  justified : ∀ v, p.honest v → ∀ round a, p.precommitted v round a → p.Supported round a
  unlock : ∀ v, p.honest v → ∀ r a, p.precommitted v r a → ∀ r' b, p.prevoted v r' b →
    r < r' → b ≠ a → ∃ mid, r < mid ∧ mid < r' ∧ p.Supported mid b

variable {p} {r r' : ℕ} {a b : B}

lemma Locking.supported_unique (h : p.Locking) (ha : p.Supported r a) (hb : p.Supported r b) :
    a = b := by
  obtain ⟨s,hs,hsa⟩ := ha
  obtain ⟨t,ht,htb⟩ := hb
  obtain ⟨v,hvs,hvt,hv⟩ := h.overlap s t hs ht
  exact h.unique v hv r a b (hsa v hvs hv) (htb v hvt hv)

lemma Locking.decided_supported (h : p.Locking) (ha : p.Decided r a) : p.Supported r a := by
  obtain ⟨s,hs,hsa⟩ := ha
  obtain ⟨v,hvs,_,hv⟩ := h.overlap s s hs hs
  exact h.justified v hv r a (hsa v hvs hv)

/-- From the deciding round on, no other value gains support. The induction is on the later
round: an honest voter common to both quorums must have been unlocked in between. -/
lemma Locking.supported_after (h : p.Locking) (ha : p.Decided r a) (hl : r ≤ r')
    (hb : p.Supported r' b) : b = a := by
  induction r' using Nat.strong_induction_on with
  | _ r' ih =>
    rcases hl.eq_or_lt with rfl | hlt
    · exact h.supported_unique hb (h.decided_supported ha)
    · by_contra hn
      obtain ⟨s,hs,hsa⟩ := ha
      obtain ⟨t,ht,htb⟩ := hb
      obtain ⟨v,hvs,hvt,hv⟩ := h.overlap s t hs ht
      obtain ⟨mid,hlo,hh,hm⟩ := h.unlock v hv r a (hsa v hvs hv) r' b (htb v hvt hv) hlt hn
      exact hn (ih mid hh hlo.le hm)

lemma Locking.agreement (h : p.Locking) (ha : p.Decided r a) (hb : p.Decided r' b) : a = b := by
  rcases Nat.le_total r r' with hl | hl
  · exact (h.supported_after ha hl (h.decided_supported hb)).symm
  · exact h.supported_after hb hl (h.decided_supported ha)

end Voting
end Astrolune.Lib
