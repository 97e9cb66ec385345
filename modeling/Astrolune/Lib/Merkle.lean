import Mathlib.Data.List.Basic
import Mathlib.Tactic.Common

namespace Astrolune.Lib
open List

variable {α β : Type}

/-- One level of a binary tree: neighbours are joined and an odd last element moves up alone. -/
def pairUp (join : α → α → α) : List α → List α
  | [] => []
  | [a] => [a]
  | a :: b :: rest => join a b :: pairUp join rest

/-- Joins level after level. There are fewer than `fuel` levels when `fuel` is the length of the
first one. -/
def collapse (join : α → α → α) : Nat → List α → Option α
  | 0, level => level.head?
  | fuel+1, level =>
    if 1 < level.length then collapse join fuel (pairUp join level) else level.head?

lemma length_pairUp (join : α → α → α) (lv : List α) :
    (pairUp join lv).length = (lv.length + 1) / 2 := by
  induction lv using pairUp.induct with
  | case1 => simp [pairUp]
  | case2 a => simp [pairUp]
  | case3 a b rest ih =>
    simp only [pairUp,length_cons,ih]
    omega

variable {join : α → α → α} {join' : β → β → β} {f : α → β}

lemma map_pairUp (hf : ∀ a b, f (join a b) = join' (f a) (f b)) (lv : List α) :
    (pairUp join lv).map f = pairUp join' (lv.map f) := by
  induction lv using pairUp.induct with
  | case1 => simp [pairUp]
  | case2 a => simp [pairUp]
  | case3 a b rest ih => simp only [pairUp,map_cons,hf,ih]

lemma map_collapse (hf : ∀ a b, f (join a b) = join' (f a) (f b)) (fuel : Nat) (lv : List α) :
    (collapse join fuel lv).map f = collapse join' fuel (lv.map f) := by
  induction fuel generalizing lv with
  | zero => simp [collapse]
  | succ fuel ih =>
    simp only [collapse,length_map]
    split_ifs
    · rw [ih,map_pairUp hf]
    · simp

end Astrolune.Lib
