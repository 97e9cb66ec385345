import Astrolune.Lib.Result

/-! Pre- and postconditions of fallible programs with a state. A failure satisfies every
postcondition. -/

namespace Astrolune.Lib

variable {σ ε α β : Type} {P : σ → Prop} {e : ε} {p : Prop} [Decidable p]

def Triple (P : σ → Prop) (x : StateT σ (Except ε) α) (Q : α → σ → Prop) : Prop :=
  ∀ s a s', P s → x.run s = .ok (a, s') → Q a s'

namespace Triple

variable {x : StateT σ (Except ε) α} {f : α → StateT σ (Except ε) β} {Q : α → σ → Prop}
  {R : β → σ → Prop}

lemma bind (hx : Triple P x Q) (hf : ∀ a, Triple (Q a) (f a) R) : Triple P (x >>= f) R := by
  intro s b s' hs h
  rw [StateT.run_bind,bind_eq_ok] at h
  obtain ⟨⟨a,mid⟩,hru,hr⟩ := h
  exact hf a mid b s' (hx s a mid hs hru) hr

lemma pure {a : α} (h : ∀ s, P s → Q a s) : Triple P (Pure.pure a : StateT σ (Except ε) α) Q := by
  intro s b s' hs hr
  simp only [StateT.run_pure,pure_ok_iff,Prod.mk.injEq] at hr
  obtain ⟨rfl,rfl⟩ := hr
  exact h s hs

lemma given {q : Prop} (h : q → Triple P x Q) : Triple (fun s => P s ∧ q) x Q :=
  fun s a s' hs => h hs.2 s a s' hs.1

lemma get {Q : σ → σ → Prop} (h : ∀ s, P s → Q s s) :
    Triple P (MonadState.get : StateT σ (Except ε) σ) Q := by
  intro s b s' hs hr
  simp only [StateT.run_get,pure_ok_iff,Prod.mk.injEq] at hr
  obtain ⟨rfl,rfl⟩ := hr
  exact h s hs

lemma set {Q : PUnit → σ → Prop} {t : σ} (h : ∀ s, P s → Q ⟨⟩ t) :
    Triple P (MonadStateOf.set t : StateT σ (Except ε) PUnit) Q := by
  intro s b s' hs hr
  cases hr
  exact h s hs

lemma modify {Q : PUnit → σ → Prop} {g : σ → σ} (h : ∀ s, P s → Q ⟨⟩ (g s)) :
    Triple P (modifyThe σ g : StateT σ (Except ε) PUnit) Q := by
  intro s b s' hs hr
  cases hr
  exact h s hs

lemma ensure {Q : Unit → σ → Prop} (h : ∀ s, P s → p → Q () s) :
    Triple P (StateT.lift (Lib.ensure e p)) Q := by
  intro s b s' hs hr
  simp only [StateT.run_lift,bind_eq_ok,ensure_eq_ok,pure_ok_iff,Prod.mk.injEq] at hr
  obtain ⟨_,hp,_,rfl⟩ := hr
  exact h s hs hp

end Triple
end Astrolune.Lib
