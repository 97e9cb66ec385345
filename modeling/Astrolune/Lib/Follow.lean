import Mathlib.Data.List.Induction
import Astrolune.Lib.Result

namespace Astrolune.Lib
open List

section Follow

variable {σ α ε : Type} {apply : σ → α → Except ε Unit × σ} {s : σ} {xs ys : List α}

/-- The inputs in order: how many are accepted, and the state after them. -/
def follow (apply : σ → α → Except ε Unit × σ) (s : σ) (inputs : List α) : Nat × σ :=
  inputs.foldl (fun p a =>
    match apply p.2 a with
    | (.ok _, next) => (p.1 + 1, next)
    | (.error _, same) => (p.1, same)) (0, s)

/-- A refused input changes nothing. -/
def Steady (apply : σ → α → Except ε Unit × σ) : Prop :=
  ∀ s a e, (apply s a).1 = .error e → (apply s a).2 = s

/-- Two inputs, one of each sequence, that the state which both have reached accepts with different
outcomes. -/
def Forks (apply : σ → α → Except ε Unit × σ) (s : σ) (xs ys : List α) : Prop :=
  ∃ front a front' b, front ++ [a] <+: xs ∧ front' ++ [b] <+: ys ∧
    (follow apply s front').2 = (follow apply s front).2 ∧
    ((apply (follow apply s front).2 a).1 = .ok () ∧ (apply (follow apply s front).2 b).1 = .ok ()) ∧
    (apply (follow apply s front).2 a).2 ≠ (apply (follow apply s front).2 b).2

lemma Forks.mono {xs' ys' : List α} (h : Forks apply s xs ys) (hx : xs <+: xs') (hy : ys <+: ys') :
    Forks apply s xs' ys' := by
  obtain ⟨front,a,front',b,ha,hb,h⟩ := h
  exact ⟨front,a,front',b,ha.trans hx,hb.trans hy,h⟩

lemma follow_snoc (hk : Steady apply) (rest : List α) (a : α) :
    follow apply s (rest ++ [a]) = follow apply s rest ∨
      apply (follow apply s rest).2 a = (.ok (),(follow apply s (rest ++ [a])).2) ∧
        (follow apply s (rest ++ [a])).1 = (follow apply s rest).1 + 1 := by
  have hf : follow apply s (rest ++ [a]) = match apply (follow apply s rest).2 a with
      | (.ok _,next) => ((follow apply s rest).1 + 1,next)
      | (.error _,same) => ((follow apply s rest).1,same) := by
    simp only [follow,foldl_append,foldl_cons,foldl_nil]
  have hs := hk (follow apply s rest).2 a
  generalize apply (follow apply s rest).2 a = r at hf hs
  obtain ⟨_ | _,next⟩ := r
  · exact .inl (hf.trans (Prod.ext rfl (hs _ rfl)))
  · rw [hf]
    exact .inr ⟨rfl,rfl⟩

lemma follow_none (hk : Steady apply) (h : (follow apply s xs).1 = 0) : (follow apply s xs).2 = s := by
  induction xs using reverseRecOn with
  | nil => rfl
  | append_singleton rest a ih =>
    rcases follow_snoc hk rest a with hf | ⟨-,hf⟩
    · rw [hf] at h ⊢
      exact ih h
    · rw [hf] at h
      cases h

lemma follow_last (hk : Steady apply) {n : Nat} (h : (follow apply s xs).1 = n + 1) :
    ∃ front a, front ++ [a] <+: xs ∧ (follow apply s front).1 = n ∧
      apply (follow apply s front).2 a = (.ok (),(follow apply s xs).2) := by
  induction xs using reverseRecOn with
  | nil => cases h
  | append_singleton rest a ih =>
    rcases follow_snoc hk rest a with hf | ⟨ha,hf⟩
    · rw [hf] at h ⊢
      obtain ⟨front,b,hp,hr⟩ := ih h
      exact ⟨front,b,hp.trans (prefix_append _ _),hr⟩
    · rw [hf] at h
      exact ⟨rest,a,prefix_refl _,Nat.succ.inj h,ha⟩

lemma agree_or_fork (hk : Steady apply) (h : (follow apply s xs).1 = (follow apply s ys).1) :
    (follow apply s xs).2 = (follow apply s ys).2 ∨ Forks apply s xs ys := by
  induction hn : (follow apply s xs).1 generalizing xs ys with
  | zero =>
    rw [hn] at h
    exact .inl ((follow_none hk hn).trans (follow_none hk h.symm).symm)
  | succ n ih =>
    rw [hn] at h
    obtain ⟨front,a,hp,hb,ha⟩ := follow_last hk hn
    obtain ⟨front',a',hp',hb',ha'⟩ := follow_last hk h.symm
    rcases ih (hb.trans hb'.symm) hb with heq | hf
    · by_cases hs : (follow apply s xs).2 = (follow apply s ys).2
      · exact .inl hs
      · rw [← heq] at ha'
        exact .inr ⟨front,a,front',a',hp,hp',heq.symm,by rw [ha,ha']; exact ⟨⟨rfl,rfl⟩,hs⟩⟩
    · exact .inr (hf.mono ((prefix_append _ _).trans hp) ((prefix_append _ _).trans hp'))

end Follow

end Astrolune.Lib
