import Mathlib.Algebra.Group.Nat.Defs
import Mathlib.Tactic.Common

namespace Astrolune.Lib
open List

@[simp] lemma ok_bind {ε α β : Type} (a : α) (f : α → Except ε β) :
    ((Except.ok a : Except ε α) >>= f) = f a := rfl

@[simp] lemma error_bind {ε α β : Type} (e : ε) (f : α → Except ε β) :
    ((Except.error e : Except ε α) >>= f) = .error e := rfl

@[simp] lemma pure_eq_ok {ε α : Type} (a : α) : (pure a : Except ε α) = .ok a := rfl

lemma pure_ok_iff {ε α : Type} {a b : α} : (pure a : Except ε α) = .ok b ↔ a = b := by
  rw [pure_eq_ok,Except.ok.injEq]

lemma bind_eq_ok {ε α β : Type} {x : Except ε α} {f : α → Except ε β} {b : β} :
    x >>= f = .ok b ↔ ∃ a, x = .ok a ∧ f a = .ok b := by
  cases x <;> simp

/-- Fails with `e` unless the condition holds. -/
def ensure {ε : Type} (e : ε) (p : Prop) [Decidable p] : Except ε Unit :=
  if p then .ok () else .error e

variable {p : Prop} {u : Unit} {ε' : Type}

@[simp] lemma ensure_eq_ok {ε : Type} {e : ε} [Decidable p] :
    ensure e p = .ok u ↔ p := by
  unfold ensure
  split <;> simp [*]

@[simp] lemma ensure_eq_error {ε : Type} {e e' : ε} [Decidable p] :
    ensure e p = .error e' ↔ ¬p ∧ e = e' := by
  unfold ensure
  split <;> simp [*]

lemma ensure_of {ε : Type} {e : ε} [Decidable p] (h : p) : ensure e p = .ok () := if_pos h

/-- `Option::ok_or`: the value, or the given error. -/
def okOr {ε α : Type} (e : ε) : Option α → Except ε α
  | some a => .ok a
  | none => .error e

@[simp] lemma okOr_eq_ok {ε α : Type} {e : ε} {x : Option α} {a : α} :
    okOr e x = .ok a ↔ x = some a := by
  cases x <;> simp [okOr]

/-- By the one value there may be, also over a type whose values could be counted through. -/
instance (priority := high) decidableForallOption {α : Type} {p : α → Prop} [DecidablePred p]
    (o : Option α) : Decidable (∀ a ∈ o, p a) := Option.decidableForallMem o

def checkedAdd64 (a b : Nat) : Option Nat := if a + b < 2 ^ 64 then some (a + b) else none

lemma checkedAdd64_eq_some {a b c : Nat} :
    checkedAdd64 a b = some c ↔ c = a + b ∧ c < 2 ^ 64 := by
  unfold checkedAdd64
  split <;> simp <;> omega

def failAs {ε ε' α : Type} (e : ε') : Except ε α → Except ε' α
  | .ok a => .ok a
  | .error _ => .error e

@[simp] lemma failAs_ok {ε α : Type} (e : ε') (a : α) :
    failAs e (.ok a : Except ε α) = .ok a := rfl

@[simp] lemma failAs_error {ε α : Type} (e : ε') (why : ε) :
    failAs e (.error why : Except ε α) = .error e := rfl

lemma failAs_eq_ok {ε α : Type} {e : ε'} {x : Except ε α} {a : α} :
    failAs e x = .ok a ↔ x = .ok a := by
  cases x <;> simp

lemma foldlM_preserves {ε α β : Type} {f : β → α → Except ε β} {P : β → Prop} {l : List α}
    (hs : ∀ b a b', a ∈ l → P b → f b a = .ok b' → P b') {b out : β} (hb : P b)
    (h : l.foldlM f b = .ok out) : P out := by
  induction l generalizing b with
  | nil =>
    simp only [foldlM_nil,pure_ok_iff] at h
    exact h ▸ hb
  | cons a rest ih =>
    rw [foldlM_cons,bind_eq_ok] at h
    obtain ⟨next,hn,h⟩ := h
    exact ih (fun b a b' ha => hs b a b' (mem_cons_of_mem _ ha)) (hs b a next mem_cons_self hb hn) h

lemma mem_of_mapM {ε α β : Type} {f : α → Except ε β} {l : List α} {out : List β}
    (h : l.mapM f = .ok out) {b : β} (hb : b ∈ out) : ∃ a ∈ l, f a = .ok b := by
  induction l generalizing out with
  | nil =>
    simp only [mapM_nil,pure_ok_iff] at h
    simp [← h] at hb
  | cons a rest ih =>
    simp only [mapM_cons,bind_eq_ok,pure_ok_iff] at h
    obtain ⟨first,hf,others,ho,rfl⟩ := h
    rcases mem_cons.mp hb with rfl | hb
    · exact ⟨a,mem_cons_self,hf⟩
    · obtain ⟨x,hx,hfx⟩ := ih ho hb
      exact ⟨x,mem_cons_of_mem a hx,hfx⟩

lemma forall₂_of_mapM {ε α β : Type} {f : α → Except ε β} {l : List α} {out : List β}
    (h : l.mapM f = .ok out) : Forall₂ (fun a b => f a = .ok b) l out := by
  induction l generalizing out with
  | nil =>
    simp only [mapM_nil,pure_ok_iff] at h
    exact h ▸ .nil
  | cons a rest ih =>
    simp only [mapM_cons,bind_eq_ok,pure_ok_iff] at h
    obtain ⟨first,hf,others,ho,rfl⟩ := h
    exact .cons hf (ih ho)

lemma getElem?_of_mapM {ε α β : Type} {f : α → Except ε β} {l : List α} {out : List β}
    (h : l.mapM f = .ok out) {i : Nat} {a : α} {b : β} (ha : l[i]? = some a) (hb : out[i]? = some b) :
    f a = .ok b := by
  have hal := forall₂_of_mapM h
  clear h
  induction hal generalizing i with
  | nil => cases ha
  | cons hf _ ih =>
    cases i with
    | zero =>
      cases ha
      cases hb
      exact hf
    | succ i => exact ih ha hb

lemma exists_mapM {ε α β : Type} {f : α → Except ε β} {l : List α} :
    (∃ out, l.mapM f = .ok out) ↔ ∀ a ∈ l, ∃ b, f a = .ok b := by
  induction l with
  | nil => simp [mapM_nil]
  | cons a l ih =>
    simp only [mapM_cons,bind_eq_ok,pure_ok_iff,forall_mem_cons,← ih]
    constructor
    · rintro ⟨_,b,hb,out,ho,-⟩
      exact ⟨⟨b,hb⟩,out,ho⟩
    · rintro ⟨⟨b,hb⟩,out,ho⟩
      exact ⟨_,b,hb,out,ho,rfl⟩

lemma ok_of_mapM {ε α β : Type} {f : α → Except ε β} {l : List α} {out : List β}
    (h : l.mapM f = .ok out) {a : α} (ha : a ∈ l) : ∃ b ∈ out, f a = .ok b := by
  have hal := forall₂_of_mapM h
  clear h
  induction hal with
  | nil => cases ha
  | cons hf _ ih =>
    rcases mem_cons.mp ha with rfl | ha
    · exact ⟨_,mem_cons_self,hf⟩
    · obtain ⟨b,hb,hab⟩ := ih ha
      exact ⟨b,mem_cons_of_mem _ hb,hab⟩

lemma step_of_foldlM {ε α β : Type} {f : β → α → Except ε β} {l : List α} {b out : β}
    (h : l.foldlM f b = .ok out) {a : α} (ha : a ∈ l) : ∃ s s', f s a = .ok s' := by
  induction l generalizing b with
  | nil => cases ha
  | cons first rest ih =>
    rw [foldlM_cons,bind_eq_ok] at h
    obtain ⟨next,hn,h⟩ := h
    rcases mem_cons.mp ha with rfl | ha
    · exact ⟨b,next,hn⟩
    · exact ih h ha

lemma of_forM {ε α : Type} {f : α → Except ε Unit} {l : List α}
    (h : l.forM f = .ok u) : ∀ a ∈ l, f a = .ok () := by
  induction l with
  | nil => simp
  | cons a rest ih =>
    rw [forM_eq_forM] at h ih
    simp only [forM_cons,bind_eq_ok] at h
    obtain ⟨_,ha,hr⟩ := h
    exact forall_mem_cons.mpr ⟨ha,ih hr⟩

lemma forM_eq_ok {ε α : Type} {f : α → Except ε Unit} {l : List α} :
    l.forM f = .ok u ↔ ∀ a ∈ l, f a = .ok () := by
  refine ⟨of_forM,fun h => ?_⟩
  induction l with
  | nil => rfl
  | cons a rest ih =>
    obtain ⟨ha,hr⟩ := forall_mem_cons.mp h
    rw [forM_eq_forM] at ih ⊢
    rw [forM_cons,ha,ok_bind,ih hr]

@[simp] lemma mapError_eq_ok {ε α : Type} {f : ε → ε'} {x : Except ε α} {a : α} :
    x.mapError f = .ok a ↔ x = .ok a := by
  cases x <;> simp [Except.mapError]

def FailsOnly {ε α : Type} (P : ε → Prop) (x : Except ε α) : Prop := ∀ e, x = .error e → P e

def FailsAs {ε α : Type} (e : ε) (x : Except ε α) : Prop := ∀ why, x = .error why → why = e

section Fails

variable {ε α β : Type} {e : ε} {P : ε → Prop}

lemma FailsOnly.ok (a : α) : FailsOnly P (.ok a) := fun _ h => by cases h

lemma FailsOnly.bind {x : Except ε α} {f : α → Except ε β} (hx : FailsOnly P x)
    (hf : ∀ a, x = .ok a → FailsOnly P (f a)) : FailsOnly P (x >>= f) := by
  intro why h
  cases x with
  | error other =>
    cases h
    exact hx _ rfl
  | ok a => exact hf a rfl why h

lemma FailsOnly.ensure {p : Prop} [Decidable p] (h : P e) : FailsOnly P (ensure e p) := by
  intro why hr
  obtain ⟨_,rfl⟩ := ensure_eq_error.mp hr
  exact h

lemma FailsOnly.foldlM {f : β → α → Except ε β} (hf : ∀ b a, FailsOnly P (f b a)) (l : List α)
    (b : β) : FailsOnly P (l.foldlM f b) := by
  induction l generalizing b with
  | nil => exact .ok b
  | cons a rest ih => exact (hf b a).bind fun next _ => ih next

lemma FailsAs.ok (a : α) : FailsAs e (.ok a) := FailsOnly.ok a

lemma FailsAs.bind {x : Except ε α} {f : α → Except ε β} (hx : FailsAs e x)
    (hf : ∀ a, FailsAs e (f a)) : FailsAs e (x >>= f) := FailsOnly.bind hx fun a _ => hf a

lemma FailsAs.ensure {p : Prop} [Decidable p] : FailsAs e (ensure e p) :=
  FailsOnly.ensure (P := (· = e)) rfl

lemma FailsAs.foldlM {f : β → α → Except ε β} (hf : ∀ b a, FailsAs e (f b a)) (l : List α) (b : β) :
    FailsAs e (l.foldlM f b) := FailsOnly.foldlM hf l b

end Fails

lemma bind_congr_ok {ε α β : Type} {x : Except ε α} {f g : α → Except ε β}
    (h : ∀ a, x = .ok a → f a = g a) : x >>= f = x >>= g := by
  cases x with
  | error e => rfl
  | ok a => exact h a rfl

def OkLe {ε α : Type} (x y : Except ε α) : Prop := ∀ a, x = .ok a → y = .ok a

namespace OkLe

variable {ε α β : Type} {x y : Except ε α} {f g : α → Except ε β}

lemma refl (x : Except ε α) : OkLe x x := fun _ h => h

lemma bind (hx : OkLe x y) (hf : ∀ a, x = .ok a → OkLe (f a) (g a)) : OkLe (x >>= f) (y >>= g) := by
  intro b h
  obtain ⟨a,ha,hb⟩ := bind_eq_ok.mp h
  exact bind_eq_ok.mpr ⟨a,hx a ha,hf a ha b hb⟩

lemma after (hf : ∀ a, x = .ok a → OkLe (f a) (g a)) : OkLe (x >>= f) (x >>= g) := (refl x).bind hf

end OkLe

end Astrolune.Lib
