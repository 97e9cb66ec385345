import Mathlib.Data.List.Sort

namespace Astrolune.Lib
open List

variable {α κ σ : Type}

section Keyed

variable [LinearOrder κ] {f : α → κ} {r : α → α → Prop} [DecidableRel r] {l l' : List α}

lemma pairwise_sort (hr : ∀ a b, r a b ↔ f a ≤ f b) (l : List α) : (l.insertionSort r).Pairwise r := by
  have : Std.Total r := ⟨fun a b => by rw [hr,hr]; exact le_total _ _⟩
  have : IsTrans α r := ⟨fun a b c => by rw [hr,hr,hr]; exact le_trans⟩
  exact pairwise_insertionSort r l

lemma sort_ascending_iff (hr : ∀ a b, r a b ↔ f a ≤ f b) :
    ((l.insertionSort r).map f).Pairwise (· < ·) ↔ (l.map f).Nodup := by
  have hp := (perm_insertionSort r l).map f
  rw [← hp.nodup_iff]
  constructor
  · exact fun h => h.imp fun {_ _} hlt => ne_of_lt hlt
  · intro hno
    have hl : ((l.insertionSort r).map f).Pairwise (· ≤ ·) :=
      pairwise_map.mpr ((pairwise_sort hr l).imp fun {a b} h => (hr a b).mp h)
    exact hl.imp₂ (fun {_ _} hl hn => lt_of_le_of_ne hl hn) hno

lemma sort_eq_of_perm (hr : ∀ a b, r a b ↔ f a ≤ f b) (h : l.Perm l') (hn : (l.map f).Nodup) :
    l.insertionSort r = l'.insertionSort r := by
  have hl := perm_insertionSort r l
  have hl' := perm_insertionSort r l'
  refine Perm.eq_of_pairwise (fun a b ha hb hab hba => ?_) (pairwise_sort hr l) (pairwise_sort hr l')
    (hl.trans (h.trans hl'.symm))
  exact inj_on_of_nodup_map hn (hl.mem_iff.mp ha) (h.mem_iff.mpr (hl'.mem_iff.mp hb))
    (le_antisymm ((hr a b).mp hab) ((hr b a).mp hba))

end Keyed

structure Unordered (step : σ → α → σ) : Prop where
  comm : ∀ s a b, step (step s a) b = step (step s b) a
  again : ∀ s a, step (step s a) a = step s a

namespace Unordered

variable {step : σ → α → σ} {l l' : List α} {a : α}

lemma foldl_step (h : Unordered step) (s : σ) (l : List α) (a : α) :
    l.foldl step (step s a) = step (l.foldl step s) a := by
  induction l generalizing s with
  | nil => rfl
  | cons b l ih => rw [foldl_cons,foldl_cons,h.comm,ih]

lemma step_foldl_of_mem (h : Unordered step) (s : σ) (ha : a ∈ l) :
    step (l.foldl step s) a = l.foldl step s := by
  induction l generalizing s with
  | nil => cases ha
  | cons b l ih =>
    rw [foldl_cons]
    rcases mem_cons.mp ha with rfl | ha
    · rw [← h.foldl_step,h.again]
    · exact ih (step s b) ha

lemma foldl_absorb (h : Unordered step) (s : σ) (hl : ∀ a ∈ l', a ∈ l) :
    l'.foldl step (l.foldl step s) = l.foldl step s := by
  induction l' with
  | nil => rfl
  | cons a l' ih =>
    obtain ⟨ha,hl⟩ := forall_mem_cons.mp hl
    rw [foldl_cons,h.step_foldl_of_mem s ha,ih hl]

lemma foldl_foldl (h : Unordered step) (s : σ) (l l' : List α) :
    l.foldl step (l'.foldl step s) = l'.foldl step (l.foldl step s) := by
  induction l generalizing s with
  | nil => rfl
  | cons a l ih => rw [foldl_cons,foldl_cons,← h.foldl_step,ih]

lemma foldl_eq (h : Unordered step) (s : σ) (hl : ∀ a, a ∈ l ↔ a ∈ l') :
    l.foldl step s = l'.foldl step s := by
  rw [← h.foldl_absorb s fun a ha => (hl a).mpr ha,h.foldl_foldl,h.foldl_absorb s fun a ha => (hl a).mp ha]

end Unordered
end Astrolune.Lib
