import Mathlib.Data.Finset.Lattice.Fold
import Mathlib.Data.Fintype.Basic
import Mathlib.Data.Nat.Find
import Mathlib.Logic.Relation
import Mathlib.Order.Basic
import Mathlib.Order.Lattice.Nat
import Mathlib.Tactic.Common

/-! Numbered tasks over shared resources: the order that their conflicts impose, recovered from the
last writer and the readers since. -/

namespace Astrolune.Lib
open List

def LastBefore (P : Nat → Prop) (j i : Nat) : Prop := i < j ∧ P i ∧ ∀ m, i < m → m < j → ¬P m

section LastBefore

variable {P : Nat → Prop} {i i' j : Nat}

lemma LastBefore.le (h : LastBefore P j i) (hi' : i' < j) (hP : P i') : i' ≤ i :=
  not_lt.mp fun hl => h.2.2 i' hl hi' hP

lemma lastBefore_succ : LastBefore P (j + 1) i ↔ (P j ∧ i = j) ∨ (¬P j ∧ LastBefore P j i) := by
  constructor
  · rintro ⟨hl,hP,hn⟩
    rcases Nat.lt_succ_iff_lt_or_eq.mp hl with hl | rfl
    · exact .inr ⟨hn j hl (Nat.lt_succ_self j),hl,hP,fun m hm hmj =>
        hn m hm (Nat.lt_succ_of_lt hmj)⟩
    · exact .inl ⟨hP,rfl⟩
  · rintro (⟨hP,rfl⟩ | ⟨hno,hl,hP,hn⟩)
    · exact ⟨Nat.lt_succ_self i,hP,fun m hm hmi => absurd hm (Nat.not_lt.mpr (Nat.le_of_lt_succ hmi))⟩
    · refine ⟨Nat.lt_succ_of_lt hl,hP,fun m hm hmj => ?_⟩
      rcases Nat.lt_succ_iff_lt_or_eq.mp hmj with hmj | rfl
      · exact hn m hm hmj
      · exact hno

lemma exists_lastBefore (hlt : i < j) (hP : P i) : ∃ last, i ≤ last ∧ LastBefore P j last := by
  induction j with
  | zero => exact absurd hlt (Nat.not_lt_zero i)
  | succ j ih =>
    by_cases hj : P j
    · exact ⟨j,Nat.le_of_lt_succ hlt,lastBefore_succ.mpr (.inl ⟨hj,rfl⟩)⟩
    · have hn : i ≠ j := fun heq => hj (heq ▸ hP)
      obtain ⟨last,hle,hl⟩ := ih (lt_of_le_of_ne (Nat.le_of_lt_succ hlt) hn)
      exact ⟨last,hle,lastBefore_succ.mpr (.inr ⟨hj,hl⟩)⟩

end LastBefore

structure Accesses (R : Type) where
  reads : R → Nat → Prop
  writes : R → Nat → Prop

namespace Accesses

variable {R : Type} {a : Accesses R} {r : R} {i j : Nat}

def Touches (a : Accesses R) (r : R) (i : Nat) : Prop := a.reads r i ∨ a.writes r i

def Conflict (a : Accesses R) (i j : Nat) : Prop :=
  ∃ r, a.Touches r i ∧ a.Touches r j ∧ (a.writes r i ∨ a.writes r j)

/-- What the history of each resource says about task `j`: it waits for the last writer, and a
writer for every reader since. -/
def Edge (a : Accesses R) (j i : Nat) : Prop :=
  ∃ r, (a.Touches r j ∧ LastBefore (a.writes r) j i) ∨
    (a.writes r j ∧ a.reads r i ∧ i < j ∧ ∀ m, i < m → m < j → ¬a.writes r m)

lemma Edge.lt (h : a.Edge j i) : i < j := by
  obtain ⟨_,⟨_,hl⟩ | ⟨_,_,hlt,_⟩⟩ := h
  · exact hl.1
  · exact hlt

lemma Edge.conflict (h : a.Edge j i) : a.Conflict i j := by
  obtain ⟨r,⟨ht,hl⟩ | ⟨hw,hr,_⟩⟩ := h
  · exact ⟨r,.inr hl.2.1,ht,.inl hl.2.1⟩
  · exact ⟨r,.inl hr,.inr hw,.inr hw⟩

lemma reaches_writer (hlt : i < j) (hw : a.writes r i) (ht : a.Touches r j) :
    Relation.TransGen a.Edge j i := by
  induction j using Nat.strong_induction_on with
  | _ j ih =>
    obtain ⟨last,hle,hl⟩ := exists_lastBefore hlt hw
    have he : a.Edge j last := ⟨r,.inl ⟨ht,hl⟩⟩
    rcases Nat.eq_or_lt_of_le hle with rfl | hlt
    · exact .single he
    · exact .head he (ih last hl.1 hlt (.inr hl.2.1))

lemma Conflict.reaches (h : a.Conflict i j) (hl : i < j) : Relation.TransGen a.Edge j i := by
  obtain ⟨r,hi,hj,hwr⟩ := h
  rcases hi with hr | hwro
  · rcases hwr with hwro | hwri
    · exact reaches_writer hl hwro hj
    · -- A reader is waited for directly, or by the first writer after it.
      by_cases hno : ∀ m, i < m → m < j → ¬a.writes r m
      · exact .single ⟨r,.inr ⟨hwri,hr,hl,hno⟩⟩
      · have hs : ∃ m, i < m ∧ m < j ∧ a.writes r m := by
          by_contra hn
          exact hno fun m him hmj hm => hn ⟨m,him,hmj,hm⟩
        classical
        obtain ⟨him,hmj,hm⟩ := Nat.find_spec hs
        have hf : ∀ k, i < k → k < Nat.find hs → ¬a.writes r k := fun k hik hk hw =>
          Nat.find_min hs hk ⟨hik,hk.trans hmj,hw⟩
        exact (reaches_writer hmj hm hj).trans (.single ⟨r,.inr ⟨hm,hr,him,hf⟩⟩)
  · exact reaches_writer hl hwro hj

/-- One above the highest level of an earlier task in conflict, or zero. -/
noncomputable def level (a : Accesses R) (j : Nat) : Nat :=
  open Classical in
  Finset.univ.sup fun i : Fin j => if a.Conflict i j then a.level i + 1 else 0
termination_by j
decreasing_by exact i.2

lemma level_lt (hlt : i < j) (h : a.Conflict i j) : a.level i < a.level j := by
  classical
  have hl : (fun i : Fin j => if a.Conflict i j then a.level i + 1 else 0) ⟨i,hlt⟩ ≤
      Finset.univ.sup fun i : Fin j => if a.Conflict i j then a.level i + 1 else 0 :=
    Finset.le_sup (f := fun i : Fin j => if a.Conflict i j then a.level i + 1 else 0)
      (Finset.mem_univ _)
  rw [level.eq_1 a j]
  simp only [if_pos h] at hl
  exact hl

lemma level_le {bound : Nat} (h : ∀ i < j, a.Conflict i j → a.level i + 1 ≤ bound) :
    a.level j ≤ bound := by
  classical
  rw [level.eq_1 a j]
  refine Finset.sup_le fun i _ => ?_
  split
  · next hc => exact h i i.2 hc
  · exact Nat.zero_le _

lemma level_of_candidates {candidates : List Nat}
    (hs : ∀ v ∈ candidates, ∃ i < j, a.Conflict i j ∧ a.level i = v)
    (hb : ∀ i < j, a.Conflict i j → ∃ v ∈ candidates, a.level i ≤ v) :
    candidates.max?.elim 0 (· + 1) = a.level j := by
  cases hm : candidates.max? with
  | none =>
    have hn : candidates = [] := max?_eq_none_iff.mp hm
    refine (Nat.le_zero.mp (level_le fun i hi hc => ?_)).symm
    obtain ⟨v,hv,_⟩ := hb i hi hc
    rw [hn] at hv
    cases hv
  | some top =>
    obtain ⟨hme,hl⟩ := max?_eq_some_iff.mp hm
    obtain ⟨i,hi,hc,rfl⟩ := hs top hme
    refine le_antisymm (level_lt hi hc) (level_le fun k hk hck => ?_)
    obtain ⟨v,hv,hkv⟩ := hb k hk hck
    exact Nat.succ_le_succ (hkv.trans (hl v hv))

lemma level_cases : a.level j = 0 ∧ (∀ i < j, ¬a.Conflict i j) ∨
    ∃ i < j, a.Conflict i j ∧ a.level j = a.level i + 1 := by
  by_cases hnon : ∀ i < j, ¬a.Conflict i j
  · exact .inl ⟨Nat.le_zero.mp (level_le fun i hi hc => absurd hc (hnon i hi)),hnon⟩
  · refine .inr ?_
    by_contra hno
    have hb : a.level j ≤ a.level j - 1 := level_le fun i hi hc => by
      have hl := level_lt hi hc
      have hn : a.level j ≠ a.level i + 1 := fun heq => hno ⟨i,hi,hc,heq⟩
      omega
    have hz : a.level j = 0 := by omega
    refine hnon fun i hi hc => ?_
    have hl := level_lt hi hc
    omega

lemma level_le_lastWriter {last : Nat} (hl : LastBefore (a.writes r) j last) (hlt : i < j)
    (hw : a.writes r i) : a.level i ≤ a.level last := by
  rcases Nat.eq_or_lt_of_le (hl.le hlt hw) with rfl | hb
  · exact le_rfl
  · exact (level_lt hb ⟨r,.inr hw,.inr hl.2.1,.inl hw⟩).le

end Accesses

end Astrolune.Lib
