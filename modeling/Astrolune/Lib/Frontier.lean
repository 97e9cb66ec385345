import Astrolune.Lib.MerklePath

namespace Astrolune.Lib
open List Option

variable {α : Type} {join : α → α → α}

/-- A binary counter over `occupied` that carries a tree into its slots, lowest first. A slot that
should hold a tree but does not, or one too many slots, is a failure. -/
def carryIn (join : α → α → α) : List (Option α) → Nat → α → Option (List (Option α))
  | [], _, _ => none
  | slot :: rest, occupied, carry =>
    if occupied % 2 = 1 then
      match slot with
      | none => none
      | some left => (carryIn join rest (occupied / 2) (join left carry)).map (none :: ·)
    else some (some carry :: rest)

def joinPeaks (join : α → α → α) (frontier : List (Option α)) : Option α :=
  (frontier.filterMap id).foldl (fun right left => some (right.elim left (join left))) none

/-- The slots from `level` upwards hold the tops of the complete trees over `leaves`, with the
smallest trees at the right end. -/
def Peaks (join : α → α → α) : Nat → List (Option α) → List α → Prop
  | _, [], leaves => leaves = []
  | level, none :: rest, leaves => Peaks join (level + 1) rest leaves
  | level, some peak :: rest, leaves =>
    ∃ a b, leaves = a ++ b ∧ b.length = 2 ^ level ∧ top join b = some peak ∧
      Peaks join (level + 1) rest a

namespace Peaks

variable {lv : Nat} {frontier : List (Option α)} {lvs : List α}

lemma length_eq (h : Peaks join lv frontier lvs) : lvs.length = lvs.length / 2 ^ lv * 2 ^ lv := by
  induction frontier generalizing lv lvs with
  | nil =>
    obtain rfl : lvs = [] := h
    simp
  | cons slot rest ih =>
    cases slot with
    | none =>
      have hu := ih h
      refine (Nat.div_mul_cancel ?_).symm
      rw [hu,Nat.pow_succ,← Nat.mul_assoc,Nat.mul_right_comm]
      exact Nat.dvd_mul_left _ _
    | some peak =>
      obtain ⟨a,b,rfl,hb,-,hr⟩ := h
      have hu := ih hr
      refine (Nat.div_mul_cancel ?_).symm
      rw [length_append,hb,hu,Nat.pow_succ,← Nat.mul_assoc,Nat.mul_right_comm]
      exact Nat.dvd_add (Nat.dvd_mul_left _ _) (Nat.dvd_refl _)

lemma div_none (h : Peaks join lv (none :: frontier) lvs) :
    lvs.length / 2 ^ lv = lvs.length / 2 ^ (lv + 1) * 2 := by
  have hu : Peaks join (lv + 1) frontier lvs := h
  have hl := hu.length_eq
  rw [Nat.pow_succ,← Nat.mul_assoc,Nat.mul_right_comm] at hl
  refine Nat.div_eq_of_eq_mul_left (Nat.two_pow_pos lv) ?_
  rw [Nat.pow_succ]
  exact hl

lemma div_some {a b : List α} (hb : b.length = 2 ^ lv) (h : Peaks join (lv + 1) frontier a) :
    (a ++ b).length / 2 ^ lv = a.length / 2 ^ (lv + 1) * 2 + 1 := by
  have hl := h.length_eq
  rw [Nat.pow_succ,← Nat.mul_assoc,Nat.mul_right_comm] at hl
  refine Nat.div_eq_of_eq_mul_left (Nat.two_pow_pos lv) ?_
  rw [length_append,hb,Nat.add_mul,Nat.one_mul,Nat.pow_succ]
  omega

lemma occupied_iff (h : Peaks join lv frontier lvs) (j : Nat) :
    (∃ peak, frontier[j]? = some (some peak)) ↔ (lvs.length / 2 ^ lv).testBit j = true := by
  induction frontier generalizing lv lvs j with
  | nil =>
    obtain rfl : lvs = [] := h
    simp
  | cons slot rest ih =>
    cases slot with
    | none =>
      rw [h.div_none]
      cases j with
      | zero => simp
      | succ j => simpa [Nat.testBit_succ] using ih h j
    | some peak =>
      obtain ⟨a,b,rfl,hb,-,hr⟩ := h
      rw [div_some hb hr]
      cases j with
      | zero => simp
      | succ j =>
        have hd : (a.length / 2 ^ (lv + 1) * 2 + 1) / 2 = a.length / 2 ^ (lv + 1) := by omega
        simpa [Nat.testBit_succ,hd] using ih hr j

lemma carryIn {b : List α} {carry : α} (h : Peaks join lv frontier lvs)
    (hb : b.length = 2 ^ lv) (hc : top join b = some carry)
    (hro : lvs.length / 2 ^ lv + 1 < 2 ^ frontier.length) :
    ∃ next, Lib.carryIn join frontier (lvs.length / 2 ^ lv) carry = some next ∧
      next.length = frontier.length ∧ Peaks join lv next (lvs ++ b) := by
  induction frontier generalizing lv lvs b carry with
  | nil => simp at hro
  | cons slot rest ih =>
    rw [length_cons,Nat.pow_succ] at hro
    cases slot with
    | none =>
      rw [h.div_none,Lib.carryIn,if_neg (by omega)]
      exact ⟨_,rfl,rfl,lvs,b,rfl,hb,hc,h⟩
    | some peak =>
      obtain ⟨a,b',rfl,hb',hpe,hr⟩ := h
      rw [div_some hb' hr] at hro ⊢
      -- two complete trees of one size make the tree of the next
      have hh : Halves b' b := ⟨lv,hb',by rw [hb]; exact Nat.two_pow_pos lv,by rw [hb]⟩
      obtain ⟨x,y,hx,hy,hxy⟩ := top_halves join hh
      obtain rfl := some.inj (hx.symm.trans hpe)
      obtain rfl := some.inj (hy.symm.trans hc)
      obtain ⟨next,hn,hl,hp⟩ := @ih (lv + 1) a (b' ++ b) (join x y) hr
        (by rw [length_append,hb,hb',Nat.pow_succ]; omega) hxy (by omega)
      have hha : (a.length / 2 ^ (lv + 1) * 2 + 1) / 2 = a.length / 2 ^ (lv + 1) := by omega
      refine ⟨none :: next,?_,by rw [length_cons,hl,length_cons],?_⟩
      · rw [Lib.carryIn,if_pos (by omega),hha]
        rw [hn]
        rfl
      · rw [append_assoc]
        exact hp

lemma foldl_joinPeaks (h : Peaks join lv frontier lvs) (right : List α)
    (hri : right.length < 2 ^ lv) :
    (frontier.filterMap id).foldl (fun right left => some (right.elim left (join left)))
      (top join right) = top join (lvs ++ right) := by
  induction frontier generalizing lv lvs right with
  | nil =>
    obtain rfl : lvs = [] := h
    rfl
  | cons slot rest ih =>
    cases slot with
    | none =>
      rw [filterMap_cons_none rfl]
      exact ih h right (by rw [Nat.pow_succ]; omega)
    | some peak =>
      obtain ⟨a,b,rfl,hb,hp,hr⟩ := h
      have hs : some ((top join right).elim peak (join peak)) = top join (b ++ right) := by
        cases right with
        | nil =>
          rw [append_nil,hp]
          rfl
        | cons r rs =>
          have hh : Halves b (r :: rs) := ⟨lv,hb,Nat.succ_pos _,hri.le⟩
          obtain ⟨x,y,hx,hy,hxy⟩ := top_halves join hh
          obtain rfl := some.inj (hx.symm.trans hp)
          rw [hxy,hy]
          rfl
      rw [filterMap_cons_some (rfl : id (some peak) = some peak),foldl_cons,hs,
        ih hr _ (by rw [length_append,hb,Nat.pow_succ]; omega),append_assoc]

lemma joinPeaks (h : Peaks join 0 frontier lvs) : Lib.joinPeaks join frontier = top join lvs := by
  have hf := h.foldl_joinPeaks [] (by simp)
  rw [append_nil] at hf
  exact hf

lemma replicate_none (count : Nat) : Peaks join lv (replicate count none) [] := by
  induction count generalizing lv with
  | zero => rfl
  | succ count ih => exact ih

end Peaks

def split (count : Nat) : Nat := 2 ^ Nat.log2 (count - 1)

lemma split_bounds {count : Nat} (h : 1 < count) :
    0 < split count ∧ split count < count ∧ count ≤ split count * 2 := by
  have hl : 2 ^ (count - 1).log2 ≤ count - 1 := Nat.log2_self_le (by omega)
  have hh : count - 1 < 2 ^ ((count - 1).log2 + 1) := Nat.lt_log2_self
  rw [Nat.pow_succ] at hh
  have hp := Nat.two_pow_pos (count - 1).log2
  unfold split
  omega

lemma split_eq {m b : Nat} (hb : 0 < b) (hl : b ≤ 2 ^ m) : split (2 ^ m + b) = 2 ^ m := by
  have hp := Nat.two_pow_pos m
  have hlo : (2 ^ m + b - 1).log2 = m := by
    rw [Nat.log2_eq_iff (by omega),Nat.pow_succ]
    omega
  rw [split,hlo]

lemma halves_split {a b : List α} (h : Halves a b) : split (a ++ b).length = a.length := by
  obtain ⟨m,ha,hb,hl⟩ := h
  rw [length_append,ha,split_eq hb hl]

def splitTop (join : α → α → α) (leaves : List α) : Option α :=
  match leaves with
  | [] => none
  | [a] => some a
  | a :: b :: rest =>
    match splitTop join ((a :: b :: rest).take (split (a :: b :: rest).length)),
      splitTop join ((a :: b :: rest).drop (split (a :: b :: rest).length)) with
    | some x, some y => some (join x y)
    | _, _ => none
termination_by leaves.length
decreasing_by
  all_goals
    have hlong : 1 < (a :: b :: rest).length := by simp
    have := split_bounds hlong
    simp only [length_take, length_drop]
    omega

lemma splitTop_eq (lvs : List α) : splitTop join lvs = top join lvs := by
  by_cases hn : lvs = []
  · rw [hn,splitTop]
    rfl
  refine halves_induction (P := fun l => splitTop join l = top join l) ?_ ?_ hn
  · intro a
    rw [splitTop]
    rfl
  · intro a b hab iha ihb
    obtain ⟨x,y,hx,hy,hxy⟩ := top_halves join hab
    have hs := halves_split hab
    have hlo : ∃ p q rest, a ++ b = p :: q :: rest := by
      obtain ⟨m,ha,hb,-⟩ := hab
      have hp := Nat.two_pow_pos m
      match hli : a ++ b with
      | [] | [_] =>
        have hl := congrArg length hli
        simp only [length_append,length_nil,length_singleton] at hl
        omega
      | p :: q :: rest => exact ⟨p,q,rest,rfl⟩
    obtain ⟨p,q,rest,hli⟩ := hlo
    rw [hxy,hli,splitTop,← hli,hs,take_left,drop_left,iha,ihb,hx,hy]

def splitDepth : Nat → Nat → Nat → Nat
  | 0, _, _ => 0
  | fuel+1, index, count =>
    if 1 < count then
      if index < split count then splitDepth fuel index (split count) + 1
      else splitDepth fuel (index - split count) (count - split count) + 1
    else 0

lemma PathTo.splitDepth {lv sibs : List α} {index fuel : Nat}
    (h : PathTo join lv index sibs) (hf : lv.length ≤ fuel + 1) :
    Lib.splitDepth fuel index lv.length = sibs.length := by
  induction h generalizing fuel with
  | one a => cases fuel <;> rfl
  | @left a b sibs index y hab h hy ih =>
    have hs := halves_split hab
    obtain ⟨x,hx,-⟩ := h.walk
    have hi : index < a.length := (List.getElem?_eq_some_iff.mp hx).1
    obtain ⟨m,ha,hb,hl⟩ := hab
    rw [length_append] at hf hs ⊢
    obtain ⟨fuel,rfl⟩ := Nat.exists_eq_add_one.mpr (by omega : 0 < fuel)
    rw [Lib.splitDepth,if_pos (by omega),hs,if_pos hi,ih (by omega),length_append]
    rfl
  | @right a b sibs index x hab h hx ih =>
    have hs := halves_split hab
    obtain ⟨m,ha,hb,hl⟩ := hab
    have hp := Nat.two_pow_pos m
    rw [length_append] at hf hs ⊢
    obtain ⟨fuel,rfl⟩ := Nat.exists_eq_add_one.mpr (by omega : 0 < fuel)
    rw [Lib.splitDepth,if_pos (by omega),hs,if_neg (by omega),Nat.add_sub_cancel_left,
      Nat.add_sub_cancel_left,ih (by omega),length_append]
    rfl

end Astrolune.Lib
