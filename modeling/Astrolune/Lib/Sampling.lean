import Mathlib.Algebra.BigOperators.Group.List.Basic
import Mathlib.Data.Int.CardIntervalMod
import Mathlib.Data.Nat.Periodic

namespace Astrolune.Lib
open List

section Rejection

variable {size tot ticket : Nat}

/-- How many numbers below `size` are too many for a whole multiple of `total`, computed without
a number above `size`. -/
def excess (size total : Nat) : Nat := (size - total) % total

lemma excess_eq_mod (h : tot ≤ size) : excess size tot = size % tot := (Nat.mod_eq_sub_mod h).symm

lemma card_unbiased (hpo : 0 < tot) (hl : tot ≤ size) (ht : ticket < tot) :
    ((Finset.range size).filter fun v => excess size tot ≤ v ∧ v % tot = ticket).card =
      size / tot := by
  have hm : ∀ v, v % tot = ticket ↔ v ≡ ticket [MOD tot] := fun v => by
    rw [Nat.ModEq,Nat.mod_eq_of_lt ht]
  have hp : Function.Periodic (· ≡ ticket [MOD tot]) (size / tot * tot) := by
    intro v
    simp only [Nat.ModEq,Nat.add_mul_mod_self_right]
  have hs : excess size tot + size / tot * tot = size := by
    rw [excess_eq_mod hl,Nat.mul_comm]
    exact Nat.mod_add_div _ _
  have hw : (Finset.range size).filter (fun v => excess size tot ≤ v ∧ v % tot = ticket) =
      (Finset.Ico (excess size tot) (excess size tot + size / tot * tot)).filter
        (· ≡ ticket [MOD tot]) := by
    ext v
    simp only [Finset.mem_filter,Finset.mem_range,Finset.mem_Ico,hm,hs]
    constructor
    · rintro ⟨hlt,hg,hv⟩
      exact ⟨⟨hg,hlt⟩,hv⟩
    · rintro ⟨⟨hg,hlt⟩,hv⟩
      exact ⟨hlt,hg,hv⟩
  rw [hw,Nat.filter_Ico_card_eq_of_periodic _ _ _ hp,Nat.count_modEq_card _ hpo,
    Nat.mul_mod_left,if_neg (Nat.not_lt_zero _),Nat.mul_div_cancel _ hpo,Nat.add_zero]

end Rejection

section Windows

variable {α : Type} {wt : α → Nat} {xs : List α} {i ticket : Nat} {x : α}

/-- The tickets of place `i`: from the weight before it, as many as its own weight. -/
def window (weight : α → Nat) (xs : List α) (i : Nat) : Finset Nat :=
  Finset.Ico ((xs.take i).map weight).sum ((xs.take (i + 1)).map weight).sum

lemma mem_window : ticket ∈ window wt xs i ↔
    ((xs.take i).map wt).sum ≤ ticket ∧ ticket < ((xs.take (i + 1)).map wt).sum :=
  Finset.mem_Ico

lemma sum_take_succ (h : xs[i]? = some x) :
    ((xs.take (i + 1)).map wt).sum = ((xs.take i).map wt).sum + wt x := by
  rw [take_add_one,h]
  simp

lemma card_window (h : xs[i]? = some x) : (window wt xs i).card = wt x := by
  rw [window,Nat.card_Ico,sum_take_succ h,Nat.add_sub_cancel_left]

lemma sum_take_le (wt : α → Nat) (xs : List α) (i : Nat) :
    ((xs.take i).map wt).sum ≤ (xs.map wt).sum := by
  conv_rhs => rw [← take_append_drop i xs,map_append,sum_append]
  exact Nat.le_add_right _ _

lemma lt_sum_of_mem_window (h : ticket ∈ window wt xs i) : ticket < (xs.map wt).sum :=
  (mem_window.mp h).2.trans_le (sum_take_le wt xs (i + 1))

end Windows

end Astrolune.Lib
