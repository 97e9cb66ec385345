import Astrolune.Lib.Conflict
import Mathlib.Data.List.Sort

/-! Orders in which every task comes after those it waits for: whatever the order, the writers of a
resource that come before a task using it are the earlier ones, in their own order. -/

namespace Astrolune.Lib
open List

def Ordered (edge : Nat → Nat → Prop) (l : List Nat) : Prop :=
  ∀ before i after, l = before ++ i :: after → ∀ j, edge i j → j ∈ before

namespace Ordered

variable {edge : Nat → Nat → Prop} {l l' : List Nat} {i j : Nat}

lemma nil : Ordered edge [] := fun pre i after h => by simp at h

lemma left (h : Ordered edge (l ++ l')) : Ordered edge l :=
  fun pre i after hl => h pre i (after ++ l') (by simp [hl])

lemma append (h : Ordered edge l)
    (h' : ∀ pre i after, l' = pre ++ i :: after → ∀ j, edge i j → j ∈ pre ∨ j ∈ l) :
    Ordered edge (l ++ l') := by
  intro pre i after hs j he
  rcases append_eq_append_iff.mp hs with ⟨mid,rfl,hl'⟩ | ⟨mid,rfl,hmi⟩
  · exact mem_append.mpr (h' mid i after hl' j he).symm
  · cases mid with
    | nil =>
      have hm := h' [] i after (by simpa using hmi.symm) j he
      simpa using hm
    | cons first rest =>
      cases hmi
      exact h pre i rest rfl j he

lemma reaches (h : Ordered edge l) {pre after : List Nat} (hl : l = pre ++ i :: after)
    (hp : Relation.TransGen edge i j) : j ∈ pre := by
  induction hp with
  | single he => exact h pre i after hl _ he
  | tail _ he ih =>
    obtain ⟨first,rest,rfl⟩ := append_of_mem ih
    exact mem_append_left _ (h first _ (rest ++ i :: after) (by simp [hl]) _ he)

end Ordered

namespace Accesses

variable {R : Type} {a : Accesses R} {r : R} {l : List Nat} {j : Nat}

lemma writer_mem_iff (ho : Ordered a.Edge (l ++ [j])) (hno : (l ++ [j]).Nodup)
    (ht : a.Touches r j) {i : Nat} (hw : a.writes r i) : i ∈ l ↔ i < j := by
  have hj : j ∉ l := fun hm => (nodup_append.mp hno).2.2 j hm j (mem_singleton_self j) rfl
  constructor
  · intro hi
    have hn : i ≠ j := fun heq => hj (heq ▸ hi)
    refine lt_of_le_of_ne (not_lt.mp fun hl => ?_) hn
    have hp : Relation.TransGen a.Edge i j := Conflict.reaches ⟨r,ht,.inr hw,.inr hw⟩ hl
    obtain ⟨pre,after,rfl⟩ := append_of_mem hi
    exact hj (mem_append_left _ (ho.left.reaches rfl hp))
  · intro hl
    have hp : Relation.TransGen a.Edge j i := Conflict.reaches ⟨r,.inr hw,ht,.inl hw⟩ hl
    exact @Ordered.reaches _ _ _ _ ho l [] rfl hp

lemma writers_increase (ho : Ordered a.Edge l) (hn : l.Nodup) :
    l.Pairwise fun i k => a.writes r i → a.writes r k → i < k := by
  induction l using reverseRecOn with
  | nil => exact .nil
  | append_singleton l k ih =>
    refine pairwise_append.mpr ⟨ih ho.left hn.of_append_left,pairwise_singleton _ _,
      fun i hi k' hk' hw hk => ?_⟩
    cases mem_singleton.mp hk'
    exact (writer_mem_iff ho hn (.inr hk) hw).mp hi

lemma filter_writers [DecidablePred (a.writes r)] (ho : Ordered a.Edge (l ++ [j]))
    (hn : (l ++ [j]).Nodup) (ht : a.Touches r j) :
    l.filter (a.writes r ·) = (range j).filter (a.writes r ·) := by
  refine List.Pairwise.eq_of_mem_iff (r := (· < ·)) ?_ ?_ fun i => ?_
  · have hin : l.Pairwise fun i k => a.writes r i → a.writes r k → i < k :=
      writers_increase ho.left hn.of_append_left
    refine pairwise_filter.mpr (hin.imp fun h hi hk => ?_)
    exact h (by simpa using hi) (by simpa using hk)
  · exact List.Pairwise.filter _ pairwise_lt_range
  · simp only [mem_filter,mem_range,decide_eq_true_eq]
    exact and_congr_left fun hw => writer_mem_iff ho hn ht hw

end Accesses
end Astrolune.Lib
