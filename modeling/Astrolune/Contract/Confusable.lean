import Astrolune.Contract.Registry

namespace Astrolune.Contract
open Lib List

/-- `CONFUSABLE_SUBS`. The digit `1` is listed for `l` and for `i`. -/
def confusableSubs : List (UInt8 × UInt8) := [(48, 111), (49, 108), (49, 105), (51, 101), (53, 115), (56, 98)]

def confusableKey (name : Bytes) : Bytes :=
  name.map fun c => ((confusableSubs.find? (·.1 = c)).map Prod.snd).getD c

def areConfusable (a b : Bytes) : Bool := confusableKey a = confusableKey b

def Resembles (a b : UInt8) : Prop := a = b ∨ (a, b) ∈ confusableSubs ∨ (b, a) ∈ confusableSubs

def LookAlike (a b : Bytes) : Prop := Forall₂ Resembles a b

/-- At some place one name has the digit `1` and the other the letter `i`. -/
def OneForI (a b : Bytes) : Prop := (49, 105) ∈ a.zip b ∨ (105, 49) ∈ a.zip b

variable {a b : Bytes}

lemma confusableKey_eq (name : Bytes) : confusableKey name = name.map skeleton := by
  refine map_congr_left fun c _ => ?_
  simp only [confusableSubs,find?_cons,find?_nil,skeleton,eq_comm (b := c)]
  by_cases h0 : c = 48
  · simp [h0]
  by_cases h1 : c = 49
  · simp [h1]
  by_cases h3 : c = 51
  · simp [h3]
  by_cases h5 : c = 53
  · simp [h5]
  by_cases h8 : c = 56
  · simp [h8]
  simp [h0,h1,h3,h5,h8]

lemma Resembles.skeleton_eq_iff {x y : UInt8} (h : Resembles x y) :
    skeleton x = skeleton y ↔ ¬((x = 49 ∧ y = 105) ∨ (x = 105 ∧ y = 49)) := by
  rcases h with rfl | h | h
  · simp only [true_iff]
    rintro (⟨rfl,h⟩ | ⟨rfl,h⟩) <;> cases h
  all_goals
    simp only [confusableSubs,mem_cons,Prod.mk.injEq,not_mem_nil,or_false] at h
    rcases h with ⟨rfl,rfl⟩ | ⟨rfl,rfl⟩ | ⟨rfl,rfl⟩ | ⟨rfl,rfl⟩ | ⟨rfl,rfl⟩ | ⟨rfl,rfl⟩ <;> decide

lemma LookAlike.map_skeleton_iff (h : LookAlike a b) :
    a.map skeleton = b.map skeleton ↔ ¬OneForI a b := by
  induction h with
  | nil => simp [OneForI]
  | @cons x y _ _ hx _ ih =>
    rw [map_cons,map_cons,cons.injEq,ih,hx.skeleton_eq_iff]
    simp only [OneForI,zip_cons_cons,mem_cons,Prod.mk.injEq,eq_comm (a := (49 : UInt8)),
      eq_comm (a := (105 : UInt8))]
    tauto

lemma registryKey_eq_iff (ha : validateName a = .ok ()) (hb : validateName b = .ok ()) :
    registryKey a = registryKey b ↔ a.map skeleton = b.map skeleton := by
  rw [registryKey_eq_ok.mpr ⟨ha,rfl⟩,registryKey_eq_ok.mpr ⟨hb,rfl⟩,Except.ok.injEq,append_right_inj]

/-- Look-alike names are kept apart just where one has `1` and the other `i`. -/
theorem look_alikes_share_key_iff (a b : Bytes) :
    (validateName a = .ok () → validateName b = .ok () →
      (registryKey a = registryKey b ↔ areConfusable a b) ∧
      (LookAlike a b → (registryKey a = registryKey b ↔ ¬OneForI a b))) ∧
    (validateName a = .ok () → b ∈ reserved → LookAlike a b → OneForI a b) ∧
    ∀ s : Registry, s.Reached → ∀ key key' lease lease', s.Holds key lease → s.Holds key' lease' →
      lease.name = a → lease'.name = b → LookAlike a b → (lease = lease' ↔ ¬OneForI a b) := by
  refine ⟨fun ha hb => ⟨?_,fun h => ?_⟩,fun ha hb h => ?_,?_⟩
  · rw [registryKey_eq_iff ha hb,areConfusable,decide_eq_true_eq,confusableKey_eq,confusableKey_eq]
  · rw [registryKey_eq_iff ha hb,h.map_skeleton_iff]
  · by_contra hn
    exact not_reserved_of_validateName ha hb (h.map_skeleton_iff.mpr hn)
  · rintro s hs key key' lease lease' hl hl' rfl rfl h
    constructor
    · rintro rfl
      exact h.map_skeleton_iff.mp rfl
    · exact fun hn => ((Registry.sound_of_reached hs).unique hl hl' (h.map_skeleton_iff.mpr hn)).2

def registers (name : Bytes) : Request := ⟨⟨name, .register 10 ⟨1, [97]⟩⟩, Fixed.fill 32 1, 1⟩

def registered (name : Bytes) : Lease := ⟨name, Fixed.fill 32 1, 1, 11, ⟨1, [97]⟩⟩

/-- `a1` and `ai` live at once, and `adm1n` is taken for a name that is not reserved. -/
theorem one_and_i_kept_apart :
    (∃ s : Registry, s.Reached ∧ s.height = 1 ∧ s.Holds (ascii "dns/v1/al") (registered (ascii "a1")) ∧
      s.Holds (ascii "dns/v1/ai") (registered (ascii "ai"))) ∧
    LookAlike (ascii "a1") (ascii "ai") ∧ validateName (ascii "adm1n") = .ok () ∧
    ascii "admin" ∈ reserved ∧ LookAlike (ascii "adm1n") (ascii "admin") := by
  refine ⟨⟨runs Registry.step ⟨fun _ => none,0⟩ [registers (ascii "a1"),registers (ascii "ai")],?_,
    by decide +kernel,⟨_,rfl,by decide +kernel⟩,⟨_,rfl,by decide +kernel⟩⟩,?_,by decide +kernel,
    by decide +kernel,?_⟩
  · have hf : Registry.Reached ⟨fun _ => none,0⟩ := .start fun _ => rfl
    have hs := hf.step (a := registers (ascii "a1")) ⟨by decide,by decide⟩
    exact hs.step (a := registers (ascii "ai")) ⟨by decide,by decide +kernel⟩
  · exact .cons (.inl rfl) (.cons (.inr (.inl (by decide))) .nil)
  · exact .cons (.inl rfl) (.cons (.inl rfl) (.cons (.inl rfl) (.cons (.inr (.inl (by decide)))
      (.cons (.inl rfl) .nil))))

end Astrolune.Contract
