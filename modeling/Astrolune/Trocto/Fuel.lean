import Astrolune.Trocto.Machine

namespace Astrolune.Trocto
open Lib List

variable {input fuel fuel' : UInt64} {ctx : ContractContext} {program : CheckedProgram} {m m' : Machine}
  {step : Step} {result : ContractExecution}

lemma toNat_succ {a b : UInt64} (h : a < b) : (a + 1).toNat = a.toNat + 1 := by
  have := UInt64.lt_iff_toNat_lt.mp h
  have := b.toNat_lt
  rw [UInt64.toNat_add]
  exact Nat.mod_eq_of_lt (by change a.toNat + 1 < _; omega)

lemma Step.exec_used (h : step.exec input ctx m = .ok (.done result)) : result.fuelUsed = m.used := by
  cases step <;> simp only [Step.exec,bind_eq_ok,pure_eq_ok,Except.ok.injEq,Outcome.done.injEq,
    reduceCtorEq,and_false,exists_false] at h
  subst h
  rfl

namespace CheckedProgram

/-- A turn with fuel left does what it does with any other fuel, and spends at most one unit. -/
lemma turn_fuel {o : Outcome} (h : program.turn input ctx fuel m = .ok o) (hu : m.used ≤ fuel') :
    ∃ used, m.used ≤ used ∧ (m.used ≤ fuel → used ≤ fuel) ∧ (∀ m', o = .next m' → m'.used = used) ∧
      (∀ r, o = .done r → r.fuelUsed = used) ∧ program.turn input ctx fuel' m =
        if used ≤ fuel' then .ok o else .error .fuelExhausted := by
  simp only [turn,bind_eq_ok,okOr_eq_ok] at h
  obtain ⟨step,hs,charged,hc,he⟩ := h
  have ho : (∀ m', o = .next m' → m'.used = charged.used) ∧ ∀ r, o = .done r → r.fuelUsed = charged.used := by
    refine ⟨?_,?_⟩
    · rintro m' rfl
      exact (Step.exec_next he).1
    · rintro r rfl
      exact Step.exec_used he
  unfold Machine.charge at hc
  split at hc
  · next hch =>
    split at hc
    · next hl =>
      cases hc
      have hs1 := toNat_succ hl
      simp only [UInt64.le_iff_toNat_le,UInt64.lt_iff_toNat_lt] at hl hu ⊢
      refine ⟨m.used + 1,by omega,fun _ => by omega,ho.1,ho.2,?_⟩
      simp only [turn,hs,okOr,ok_bind,Machine.charge,if_pos hch,UInt64.lt_iff_toNat_lt]
      by_cases hf : m.used.toNat < fuel'.toNat
      · rw [if_pos hf,if_pos (by omega)]
        exact he
      · rw [if_neg hf,if_neg (by omega)]
        rfl
    · cases hc
  · next hch =>
    cases hc
    refine ⟨m.used,UInt64.le_refl _,id,ho.1,ho.2,?_⟩
    simp only [turn,hs,okOr,ok_bind,Machine.charge,if_neg hch,if_pos hu]
    exact he

lemma run_fuel (h : program.run input ctx fuel m = .ok result) (hm : m.used ≤ fuel)
    (hu : m.used ≤ fuel') :
    m.used ≤ result.fuelUsed ∧ result.fuelUsed ≤ fuel ∧ program.run input ctx fuel' m =
      if result.fuelUsed ≤ fuel' then .ok result else .error .fuelExhausted := by
  induction m using run.induct program input ctx fuel generalizing fuel' with
  | case1 m e ht => rw [run,ht] at h; cases h
  | case2 m r ht =>
    rw [run,ht] at h
    cases h
    obtain ⟨used,hl,hf,-,hd,hr⟩ := turn_fuel ht hu
    cases hd _ rfl
    refine ⟨hl,hf hm,?_⟩
    by_cases hs : result.fuelUsed ≤ fuel'
    · rw [run,hr,if_pos hs,if_pos hs]
    · rw [run,hr,if_neg hs,if_neg hs]
  | case3 m m' ht ih =>
    rw [run,ht] at h
    obtain ⟨used,hl,hf,hn,-,hr⟩ := turn_fuel ht hu
    cases hn _ rfl
    by_cases hs : m'.used ≤ fuel'
    · obtain ⟨hle,hre,hru⟩ := ih h (hf hm) hs
      refine ⟨UInt64.le_trans hl hle,hre,?_⟩
      rw [run,hr,if_pos hs]
      exact hru
    · -- The fuel runs out in this turn, and the run needs at least as much.
      obtain ⟨hle,hre,-⟩ := ih h (hf hm) (hf hm)
      refine ⟨UInt64.le_trans hl hle,hre,?_⟩
      rw [run,hr,if_neg hs,if_neg fun hg => hs (UInt64.le_trans hle hg)]

end CheckedProgram

namespace Program

lemma scalar_fuel {instructions : List Instruction} {acc res : List UInt64 × UInt64}
    (h : instructions.foldlM (Instruction.exec input fuel) acc = .ok res) (hm : acc.2 ≤ fuel) (hu : acc.2 ≤ fuel') :
    acc.2 ≤ res.2 ∧ res.2 ≤ fuel ∧ instructions.foldlM (Instruction.exec input fuel') acc =
      if res.2 ≤ fuel' then .ok res else .error .fuelExhausted := by
  induction instructions generalizing acc fuel' with
  | nil =>
    cases h
    exact ⟨UInt64.le_refl _,hm,(if_pos hu).symm⟩
  | cons instruction rest ih =>
    obtain ⟨values,used⟩ := acc
    simp only [foldlM_cons,Instruction.exec,bind_eq_ok,ensure_eq_ok,pure_ok_iff] at h
    obtain ⟨_,⟨_,hf,value,hv,rfl⟩,hr⟩ := h
    have hs := toNat_succ hf
    simp only [UInt64.le_iff_toNat_le,UInt64.lt_iff_toNat_lt] at ih hf hm hu ⊢
    simp only [foldlM_cons,Instruction.exec,hv]
    by_cases hg : used < fuel'
    · have := UInt64.lt_iff_toNat_lt.mp hg
      obtain ⟨hl,hle,hru⟩ := @ih fuel' _ hr (by dsimp only; omega) (by dsimp only; omega)
      dsimp only at hl
      refine ⟨by omega,hle,?_⟩
      rw [ensure_of hg,ok_bind]
      exact hru
    · have hn : ¬used.toNat < fuel'.toNat := fun hl => hg (UInt64.lt_iff_toNat_lt.mpr hl)
      obtain ⟨hl,hle,-⟩ := @ih fuel _ hr (by dsimp only; omega) (by dsimp only; omega)
      dsimp only at hl
      refine ⟨by omega,hle,?_⟩
      rw [if_neg (by omega),ensure,if_neg hg]
      rfl

/-- Fuel decides only whether a call finishes: every supply of at least what a call used gives its
result, and every smaller one is exhausted. -/
theorem fuel_exact (program : Program) (h : program.evaluateContract input ctx fuel = .ok result) :
    result.fuelUsed ≤ fuel ∧ ∀ fuel', program.evaluateContract input ctx fuel' =
      if result.fuelUsed ≤ fuel' then .ok result else .error .fuelExhausted := by
  cases hp : program.stateful with
  | some checked =>
    simp only [evaluateContract,hp,CheckedProgram.evaluate,bind_eq_ok] at h ⊢
    obtain ⟨_,hv,hr⟩ := h
    have hz : ∀ fuel : UInt64, (Machine.start ctx).used ≤ fuel := fun _ => UInt64.zero_le
    refine ⟨(CheckedProgram.run_fuel hr (hz _) (hz fuel)).2.1,fun fuel' => ?_⟩
    rw [hv,ok_bind]
    exact (CheckedProgram.run_fuel hr (hz _) (hz _)).2.2
  | none =>
    simp only [evaluateContract,evaluate,evaluateScalar,hp,bind_eq_ok,pure_ok_iff] at h ⊢
    obtain ⟨_,hv,_,⟨⟨values,used⟩,hr,rfl⟩,rfl⟩ := h
    refine ⟨(scalar_fuel hr UInt64.zero_le (@UInt64.zero_le fuel)).2.1,fun fuel' => ?_⟩
    rw [hv,ok_bind,(scalar_fuel hr UInt64.zero_le UInt64.zero_le).2.2]
    split <;> rfl

def sampleSum : Program := ⟨[.input, .constant 1, .binary .add 0 1], 2, none⟩

theorem fuel_exact_sample : (3 : UInt64) ≤ 9 ∧ ∀ fuel, sampleSum.evaluateContract 5 emptyContext fuel =
    if 3 ≤ fuel then .ok ⟨6, 3, [], [], []⟩ else .error .fuelExhausted :=
  @fuel_exact 5 9 emptyContext ⟨6,3,[],[],[]⟩ sampleSum (by decide +kernel)

end Program
end Astrolune.Trocto
