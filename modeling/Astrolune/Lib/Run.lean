import Mathlib.Data.List.Basic

namespace Astrolune.Lib
open List

variable {σ α : Type}

def runs (step : σ → α → σ) (s : σ) (inputs : List α) : σ := inputs.foldl step s

lemma runs_invariant {step : σ → α → σ} {Inv : σ → Prop} {admissible : α → Prop}
    (hst : ∀ s a, admissible a → Inv s → Inv (step s a)) {s : σ} {inputs : List α}
    (ha : ∀ a ∈ inputs, admissible a) (hs : Inv s) : Inv (runs step s inputs) := by
  induction inputs generalizing s with
  | nil => exact hs
  | cons a rest ih =>
    have hn : Inv (step s a) := hst s a (ha a mem_cons_self) hs
    exact ih (fun b hb => ha b (mem_cons_of_mem a hb)) hn

lemma foldl_zipIdx_invariant {step : σ → α × Nat → σ} {Inv : Nat → σ → Prop} {l : List α} {s : σ}
    (hs : Inv 0 s) (hst : ∀ n a s, l[n]? = some a → Inv n s → Inv (n + 1) (step s (a,n))) :
    Inv l.length (l.zipIdx.foldl step s) := by
  suffices ha : ∀ n ≤ l.length, Inv n ((l.take n).zipIdx.foldl step s) by
    have hl := ha l.length (Nat.le_refl _)
    rwa [take_length] at hl
  intro n
  induction n with
  | zero => exact fun _ => hs
  | succ n ih =>
    intro hn
    have hg : l[n]? = some l[n] := getElem?_eq_getElem hn
    have ht : l.take (n + 1) = l.take n ++ [l[n]] := by rw [take_add_one,hg]; rfl
    rw [ht,zipIdx_append,foldl_append,length_take_of_le (Nat.le_of_succ_le hn)]
    simpa using hst n l[n] _ hg (ih (Nat.le_of_succ_le hn))

inductive Reachable (step : σ → α → σ) (allowed : σ → α → Prop) (start : σ → Prop) : σ → Prop where
  | start {s : σ} (h : start s) : Reachable step allowed start s
  | step {s : σ} {a : α} (h : Reachable step allowed start s) (ha : allowed s a) :
      Reachable step allowed start (step s a)

lemma Reachable.invariant {step : σ → α → σ} {allowed : σ → α → Prop} {start Inv : σ → Prop}
    (hst : ∀ s, start s → Inv s) (hste : ∀ s a, allowed s a → Inv s → Inv (step s a)) {s : σ}
    (h : Reachable step allowed start s) : Inv s := by
  induction h with
  | start hs => exact hst _ hs
  | step _ ha ih => exact hste _ _ ha ih

end Astrolune.Lib
