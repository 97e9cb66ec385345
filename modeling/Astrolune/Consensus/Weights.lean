import Astrolune.Consensus.Potb

namespace Astrolune.Consensus
open Lib Crypto List

namespace PotbPolicy

/-- `score` of a standing validator with every `u128` operation checked. -/
def checkedScore (p : PotbPolicy) (blocks : UInt64) : Option Nat := do
  let epochs := blocks.toNat / p.epochBlocks.toNat
  let room ← if p.initialWeight ≤ p.maximumWeight then some (p.maximumWeight - p.initialWeight) else none
  let growth ←
    if p.ageIncrement = 0 then some 0
    else if room / p.ageIncrement < epochs then some room
    else if epochs * p.ageIncrement < 2 ^ 128 then some (epochs * p.ageIncrement) else none
  checkedAdd128 p.initialWeight growth

def weight (p : PotbPolicy) (blocks : UInt64) : Nat :=
  min p.maximumWeight (p.initialWeight + blocks.toNat / p.epochBlocks.toNat * p.ageIncrement)

variable {p : PotbPolicy} {blocks : UInt64}

lemma growth_eq (epochs : Nat) :
    p.growth epochs = min (p.maximumWeight - p.initialWeight) (epochs * p.ageIncrement) := by
  unfold growth
  dsimp only
  split_ifs with hz hc
  · simp [hz]
  · have := (Nat.div_lt_iff_lt_mul (Nat.pos_of_ne_zero hz)).mp hc
    omega
  · have := (Nat.le_div_iff_mul_le (Nat.pos_of_ne_zero hz)).mp (Nat.le_of_not_lt hc)
    omega

lemma validateForRoster_ok (h : p.validateForRoster = .ok ()) :
    p.validate = .ok () ∧ p.initialWeight ≠ 0 ∧ p.initialWeight ≤ p.maximumWeight ∧
      maxRotationValidators * p.maximumWeight < 2 ^ 128 := by
  simp only [validateForRoster,bind_eq_ok,ensure_eq_ok] at h
  obtain ⟨_,hv,hm⟩ := h
  have hp := ensure_eq_ok.mp hv
  simp only [maxRotationValidators] at hm ⊢
  exact ⟨hv,hp.2.1,hp.2.2,by omega⟩

lemma score_eq (h : p.validateForRoster = .ok ()) : p.score blocks false = .ok (p.weight blocks) := by
  obtain ⟨hv,-,hl,-⟩ := validateForRoster_ok h
  rw [score,hv,ok_bind,growth_eq,weight]
  simp only [Bool.false_eq_true,reduceIte,pure_ok_iff]
  omega

lemma checkedScore_eq (h : p.validateForRoster = .ok ()) :
    p.checkedScore blocks = some (p.weight blocks) := by
  obtain ⟨-,-,hl,hm⟩ := validateForRoster_ok h
  have hg := @growth_eq p (blocks.toNat / p.epochBlocks.toNat)
  simp only [maxRotationValidators,growth] at hm hg
  simp only [checkedScore,if_pos hl,weight,Option.bind_eq_bind,Option.bind_some]
  split_ifs at hg ⊢ with hz hc hf
  all_goals simp only [Option.bind_none,checkedAdd128_eq_some]
  all_goals omega

lemma weight_mono {blocks' : UInt64} (hl : blocks ≤ blocks') : p.weight blocks ≤ p.weight blocks' := by
  have hd := Nat.div_le_div_right (c := p.epochBlocks.toNat) (UInt64.le_iff_toNat_le.mp hl)
  have hm := Nat.mul_le_mul_right p.ageIncrement hd
  unfold weight
  omega

lemma weight_pos (h : p.validateForRoster = .ok ()) : p.weight blocks ≠ 0 := by
  have := validateForRoster_ok h
  unfold weight
  omega

end PotbPolicy

lemma weightedRoster_eq {p : PotbPolicy} (h : p.validateForRoster = .ok ())
    (rs : OrderedMap ValidatorId PotbRecord) :
    weightedRoster p rs = .ok (((rs.entries.map (·.2)).filter (·.disqualification.isNone)).map fun r =>
      ⟨r.publicKey,p.weight r.eligibleBlocks⟩) := by
  unfold weightedRoster
  induction (rs.entries.map (·.2)).filter (·.disqualification.isNone) with
  | nil => rfl
  | cons r rest ih => rw [mapM_cons,ih,PotbPolicy.score_eq h,map_cons]; rfl

/-- The members of a committee are distinct entries of the roster, at their weights. -/
structure DrawnFrom (c : Suite) (roster : List VrfValidator) (members : List CommitteeMember) : Prop where
  distinct : (members.map (·.id)).Nodup
  entries : ∀ m ∈ members, ∃ v ∈ roster, m = ⟨v.id c, v.weight⟩

lemma DrawnFrom.length_le {c : Suite} {roster : List VrfValidator} {ms : List CommitteeMember}
    (h : DrawnFrom c roster ms) : ms.length ≤ roster.length := by
  have hs : ms.map (·.id) ⊆ roster.map (·.id c) := by
    intro id hi
    obtain ⟨m,hm,rfl⟩ := mem_map.mp hi
    obtain ⟨v,hv,rfl⟩ := h.entries m hm
    exact mem_map_of_mem hv
  simpa using (h.distinct.subperm hs).length_le

lemma sum_lt_of_weights {p : PotbPolicy} (h : p.validateForRoster = .ok ()) {l : List Nat}
    (hl : l.length ≤ maxRotationValidators) (ha : ∀ n ∈ l, n ≤ p.maximumWeight) : l.sum < 2 ^ 128 :=
  calc l.sum ≤ l.length * p.maximumWeight := by simpa using sum_le_card_nsmul l p.maximumWeight ha
    _ ≤ maxRotationValidators * p.maximumWeight := Nat.mul_le_mul_right _ hl
    _ < 2 ^ 128 := (PotbPolicy.validateForRoster_ok h).2.2.2

/-- Scores are the capped formula without overflow, and what is built of them never overflows. -/
theorem weights_exact_and_bounded (p : PotbPolicy) (h : p.validateForRoster = .ok ()) :
    (∀ blocks, p.score blocks false = .ok (p.weight blocks) ∧ p.checkedScore blocks = some (p.weight blocks)) ∧
    (∀ blocks blocks', blocks ≤ blocks' → p.weight blocks ≤ p.weight blocks') ∧
    ∀ records : OrderedMap ValidatorId PotbRecord, records.entries.length ≤ maxRotationValidators →
      ∃ roster, weightedRoster p records = .ok roster ∧ (roster.map (·.weight)).sum < 2 ^ 128 ∧
        ∀ c members, DrawnFrom c roster members →
          poolWeight members = .ok (members.map (·.power)).sum ∧
          (members ≠ [] → ∀ height, Committee.totalPower ⟨height, members⟩ = .ok (members.map (·.power)).sum) := by
  refine ⟨fun blocks => ⟨PotbPolicy.score_eq h,PotbPolicy.checkedScore_eq h⟩,fun _ _ => PotbPolicy.weight_mono,
    fun records hl => ⟨_,weightedRoster_eq h records,?_⟩⟩
  have hr : ((records.entries.map (·.2)).filter (·.disqualification.isNone)).length ≤ maxRotationValidators :=
    (length_filter_le _ _).trans (by rwa [length_map])
  generalize hro : ((records.entries.map (·.2)).filter (·.disqualification.isNone)).map
    (fun r => (⟨r.publicKey,p.weight r.eligibleBlocks⟩ : VrfValidator)) = roster
  have hl : roster.length ≤ maxRotationValidators := by rwa [← hro,length_map]
  have hw : ∀ v ∈ roster, v.weight ≤ p.maximumWeight ∧ v.weight ≠ 0 := by
    intro v hv
    obtain ⟨r,-,rfl⟩ := mem_map.mp (hro ▸ hv)
    exact ⟨Nat.min_le_left _ _,PotbPolicy.weight_pos h⟩
  refine ⟨sum_lt_of_weights h (by rwa [length_map]) ?_,fun c members hd => ?_⟩
  · simpa using fun v hv => (hw v hv).1
  have hpo : ∀ m ∈ members, m.power ≤ p.maximumWeight ∧ m.power ≠ 0 := by
    intro m hm
    obtain ⟨v,hv,rfl⟩ := hd.entries m hm
    exact hw v hv
  have hf : members.length ≤ maxRotationValidators := hd.length_le.trans hl
  have hs : (members.map (·.power)).sum < 2 ^ 128 :=
    sum_lt_of_weights h (by rwa [length_map]) (by simpa using fun m hm => (hpo m hm).1)
  rw [← Nat.zero_add (members.map _).sum] at hs
  constructor
  · have hp := foldlM_checkedAdd .invalidCommittee hs
    rwa [foldlM_map,Nat.zero_add] at hp
  · intro hn height
    obtain ⟨seen,hru⟩ := @Committee.foldlM_addMember_of members [] 0 (fun m hm => (hpo m hm).2)
      hd.distinct (by simp) hs
    rw [Committee.totalPower,ensure_of ⟨hn,hf.trans (by decide)⟩,ok_bind,hru,ok_bind,Nat.zero_add]
    rfl

theorem weights_exact_at_cap :
    PotbPolicy.score ⟨10, 5, 3, 11⟩ 25 false = .ok 11 ∧ PotbPolicy.weight ⟨10, 5, 3, 11⟩ 25 = 11 ∧
    ∀ records : OrderedMap ValidatorId PotbRecord, records.entries.length ≤ maxRotationValidators →
      ∃ roster, weightedRoster ⟨10, 5, 3, 11⟩ records = .ok roster := by
  have ha := weights_exact_and_bounded ⟨10,5,3,11⟩ (by decide)
  refine ⟨(ha.1 25).1,by decide,fun records hl => ?_⟩
  obtain ⟨roster,hr,-⟩ := ha.2.2 records hl
  exact ⟨roster,hr⟩

end Astrolune.Consensus
