import Astrolune.Lib.Merkle
import Mathlib.Algebra.Group.Nat.Defs
import Mathlib.Data.Nat.Log

namespace Astrolune.Lib
open List

variable {α β : Type} {join : α → α → α}

def top (join : α → α → α) (level : List α) : Option α := collapse join level.length level

lemma collapse_fuel {fuel fuel' : Nat} {lv : List α} (h : lv.length ≤ fuel + 1)
    (h' : lv.length ≤ fuel' + 1) : collapse join fuel lv = collapse join fuel' lv := by
  induction fuel generalizing fuel' lv with
  | zero =>
    cases fuel' with
    | zero => rfl
    | succ fuel' => rw [collapse,collapse,if_neg (by omega)]
  | succ fuel ih =>
    cases fuel' with
    | zero => rw [collapse,collapse,if_neg (by omega)]
    | succ fuel' =>
      rw [collapse,collapse]
      split
      · have hl := length_pairUp join lv
        exact ih (by omega) (by omega)
      · rfl

lemma top_singleton (a : α) : top join [a] = some a := rfl

lemma top_pairUp (lv : List α) : top join (pairUp join lv) = top join lv := by
  match lv with
  | [] => rfl
  | [a] => rfl
  | a :: b :: rest =>
    have hl := length_pairUp join (a :: b :: rest)
    have hlo : (a :: b :: rest).length = rest.length + 2 := rfl
    have hs : top join (a :: b :: rest) =
        collapse join (rest.length + 1) (pairUp join (a :: b :: rest)) := by
      rw [top,hlo,collapse,if_pos (by rw [hlo]; omega)]
    rw [hs]
    exact collapse_fuel (by omega) (by omega)

variable {a b l : List α} {f : α → β} {add : α → α → α} {t : α} {m : Nat}

lemma pairUp_append (h : a.length % 2 = 0) :
    pairUp join (a ++ b) = pairUp join a ++ pairUp join b := by
  induction a using pairUp.induct with
  | case1 => rfl
  | case2 x => simp at h
  | case3 x y rest ih =>
    rw [cons_append,cons_append,pairUp,pairUp,cons_append,ih]
    simp only [length_cons] at h
    omega

def Halves (a b : List α) : Prop := ∃ m, a.length = 2 ^ m ∧ 0 < b.length ∧ b.length ≤ 2 ^ m

lemma exists_halves (h : 1 < l.length) : ∃ a b, l = a ++ b ∧ Halves a b := by
  have hl : 2 ^ Nat.log 2 (l.length - 1) ≤ l.length - 1 := Nat.pow_log_le_self 2 (by omega)
  have hh : l.length - 1 < 2 ^ (Nat.log 2 (l.length - 1) + 1) := Nat.lt_pow_succ_log_self (by omega) _
  rw [Nat.pow_succ] at hh
  refine ⟨l.take (2 ^ Nat.log 2 (l.length - 1)),l.drop (2 ^ Nat.log 2 (l.length - 1)),
    (take_append_drop _ l).symm,Nat.log 2 (l.length - 1),?_,?_,?_⟩
  · rw [length_take]
    omega
  · rw [length_drop]
    omega
  · rw [length_drop]
    omega

lemma halves_induction {P : List α → Prop} (one : ∀ a, P [a])
    (both : ∀ a b, Halves a b → P a → P b → P (a ++ b)) (h : l ≠ []) : P l := by
  induction hn : l.length using Nat.strong_induction_on generalizing l with
  | _ n ih =>
    by_cases hlo : 1 < l.length
    · obtain ⟨a,b,rfl,m,ha,hb,hl⟩ := exists_halves hlo
      have hp : 0 < 2 ^ m := Nat.two_pow_pos m
      rw [length_append] at hn
      have han : a ≠ [] := ne_nil_of_length_pos (by omega)
      have hbn : b ≠ [] := ne_nil_of_length_pos hb
      exact both a b ⟨m,ha,hb,hl⟩ (ih a.length (by omega) han rfl) (ih b.length (by omega) hbn rfl)
    · match l with
      | [] => exact absurd rfl h
      | [a] => exact one a
      | a :: b :: rest => simp at hlo

lemma top_halves (join : α → α → α) (h : Halves a b) :
    ∃ x y, top join a = some x ∧ top join b = some y ∧ top join (a ++ b) = some (join x y) := by
  obtain ⟨m,ha,hb,hle⟩ := h
  induction m generalizing a b with
  | zero =>
    obtain ⟨x,rfl⟩ := length_eq_one_iff.mp ha
    obtain ⟨y,rfl⟩ := length_eq_one_iff.mp (by omega : b.length = 1)
    exact ⟨x,y,rfl,rfl,rfl⟩
  | succ m ih =>
    rw [Nat.pow_succ] at ha hle
    have hl := length_pairUp join a
    have hlb := length_pairUp join b
    obtain ⟨x,y,hx,hy,hxy⟩ := @ih (pairUp join a) (pairUp join b) (by omega) (by omega) (by omega)
    rw [top_pairUp] at hx hy
    rw [← pairUp_append (by omega),top_pairUp] at hxy
    exact ⟨x,y,hx,hy,hxy⟩

lemma top_isSome (h : l ≠ []) : ∃ x, top join l = some x := by
  refine halves_induction (P := fun l => ∃ x, top join l = some x) (fun a => ⟨a,rfl⟩) ?_ h
  intro a b ha _ _
  obtain ⟨x,y,-,-,hx⟩ := top_halves join ha
  exact ⟨join x y,hx⟩

lemma map_top {join' : β → β → β} (hf : ∀ a b, f (join a b) = join' (f a) (f b)) (lv : List α) :
    (top join lv).map f = top join' (lv.map f) := by
  rw [top,map_collapse hf,top,length_map]

/-- What a path leads to: at each level the element is joined with its neighbour, or moves up
alone. Every sibling has to be used. -/
def ascend (join : α → α → α) : Nat → α → Nat → Nat → List α → Option α
  | 0, x, _, _, siblings => if siblings.isEmpty then some x else none
  | fuel+1, x, index, width, siblings =>
    if 1 < width then
      if index % 2 = 1 then
        match siblings with
        | [] => none
        | left :: rest => ascend join fuel (join left x) (index / 2) ((width + 1) / 2) rest
      else if index + 1 < width then
        match siblings with
        | [] => none
        | right :: rest => ascend join fuel (join x right) (index / 2) ((width + 1) / 2) rest
      else ascend join fuel x (index / 2) ((width + 1) / 2) siblings
    else if siblings.isEmpty then some x else none

lemma ascend_short {fuel : Nat} {x : α} {index width : Nat} {sibs : List α}
    (h : width ≤ 1) : ascend join fuel x index width sibs =
      if sibs.isEmpty then some x else none := by
  cases fuel with
  | zero => rfl
  | succ fuel =>
    change (if 1 < width then _ else _) = _
    rw [if_neg (by omega)]

section Steps

variable {fuel : Nat} {x : α} {index width : Nat}

lemma ascend_odd (hw : 1 < width) (hi : index % 2 = 1) (left : α) (rest : List α) :
    ascend join (fuel + 1) x index width (left :: rest) =
      ascend join fuel (join left x) (index / 2) ((width + 1) / 2) rest := by
  change (if 1 < width then if index % 2 = 1 then _ else _ else _) = _
  rw [if_pos hw,if_pos hi]

lemma ascend_even (hw : 1 < width) (hi : index % 2 = 0) (hp : index + 1 < width) (right : α)
    (rest : List α) : ascend join (fuel + 1) x index width (right :: rest) =
      ascend join fuel (join x right) (index / 2) ((width + 1) / 2) rest := by
  change (if 1 < width then if index % 2 = 1 then _ else if index + 1 < width then _ else _
    else _) = _
  rw [if_pos hw,if_neg (by omega),if_pos hp]

lemma ascend_nil (hw : 1 < width) (hp : index % 2 = 1 ∨ index + 1 < width) :
    ascend join (fuel + 1) x index width [] = none := by
  change (if 1 < width then if index % 2 = 1 then none else if index + 1 < width then none else _
    else _) = _
  rw [if_pos hw]
  split
  · rfl
  · rw [if_pos (by omega)]

lemma ascend_alone (hw : 1 < width) (hi : index % 2 = 0) (hl : width ≤ index + 1)
    (sibs : List α) : ascend join (fuel + 1) x index width sibs =
      ascend join fuel x (index / 2) ((width + 1) / 2) sibs := by
  change (if 1 < width then if index % 2 = 1 then _ else if index + 1 < width then _ else _
    else _) = _
  rw [if_pos hw,if_neg (by omega),if_neg (by omega)]

end Steps

lemma ascend_fuel {fuel fuel' : Nat} {x : α} {index width : Nat} {sibs : List α}
    (h : width ≤ fuel + 1) (h' : width ≤ fuel' + 1) :
    ascend join fuel x index width sibs = ascend join fuel' x index width sibs := by
  induction fuel generalizing fuel' x index width sibs with
  | zero => rw [ascend_short (by omega),ascend_short (by omega)]
  | succ fuel ih =>
    cases fuel' with
    | zero => rw [ascend_short (by omega),ascend_short (by omega)]
    | succ fuel' =>
      by_cases hw : 1 < width
      · by_cases hp : index % 2 = 1 ∨ index + 1 < width
        · cases sibs with
          | nil => rw [ascend_nil hw hp,ascend_nil hw hp]
          | cons s rest =>
            by_cases hi : index % 2 = 1
            · rw [ascend_odd hw hi,ascend_odd hw hi]
              exact ih (by omega) (by omega)
            · rw [ascend_even hw (by omega) (by omega),ascend_even hw (by omega) (by omega)]
              exact ih (by omega) (by omega)
        · rw [ascend_alone hw (by omega) (by omega),ascend_alone hw (by omega) (by omega)]
          exact ih (by omega) (by omega)
      · rw [ascend_short (by omega),ascend_short (by omega)]

def walk (join : α → α → α) (x : α) (index width : Nat) (siblings : List α) : Option α :=
  ascend join width x index width siblings

section Walk

variable {x : α} {index width : Nat}

lemma walk_short {sibs : List α} (h : width ≤ 1) :
    walk join x index width sibs = if sibs.isEmpty then some x else none := ascend_short h

lemma walk_odd (hw : 1 < width) (hi : index % 2 = 1) (left : α) (rest : List α) :
    walk join x index width (left :: rest) =
      walk join (join left x) (index / 2) ((width + 1) / 2) rest := by
  obtain ⟨fuel,rfl⟩ := Nat.exists_eq_add_one.mpr (by omega : 0 < width)
  rw [walk,ascend_odd hw hi]
  exact ascend_fuel (by omega) (by omega)

lemma walk_even (hi : index % 2 = 0) (hp : index + 1 < width) (right : α) (rest : List α) :
    walk join x index width (right :: rest) =
      walk join (join x right) (index / 2) ((width + 1) / 2) rest := by
  obtain ⟨fuel,rfl⟩ := Nat.exists_eq_add_one.mpr (by omega : 0 < width)
  rw [walk,ascend_even (by omega) hi hp]
  exact ascend_fuel (by omega) (by omega)

lemma walk_nil (hw : 1 < width) (hp : index % 2 = 1 ∨ index + 1 < width) :
    walk join x index width [] = none := by
  obtain ⟨fuel,rfl⟩ := Nat.exists_eq_add_one.mpr (by omega : 0 < width)
  exact ascend_nil hw hp

lemma walk_alone (hw : 1 < width) (hi : index % 2 = 0) (hl : width ≤ index + 1)
    (sibs : List α) : walk join x index width sibs =
      walk join x (index / 2) ((width + 1) / 2) sibs := by
  obtain ⟨fuel,rfl⟩ := Nat.exists_eq_add_one.mpr (by omega : 0 < width)
  rw [walk,ascend_alone hw hi hl]
  exact ascend_fuel (by omega) (by omega)

end Walk

def LastStep (last : List α → Option α) (add : α → α → α) (siblings : List α) (t : α) : Prop :=
  ∃ rest s u, siblings = rest ++ [s] ∧ last rest = some u ∧ t = add u s

lemma not_lastStep_nil {last : List α → Option α} : ¬LastStep last add [] t := by
  rintro ⟨rest,s,u,h,-⟩
  simp at h

lemma lastStep_cons {last last' : List α → Option α} {first : α} {sibs : List α}
    (h : ∀ rest, last (first :: rest) = last' rest) (hn : last [] = none) :
    LastStep last add (first :: sibs) t ↔ LastStep last' add sibs t := by
  constructor
  · rintro ⟨rest,s,u,hl,hu,rfl⟩
    cases rest with
    | nil => rw [hn] at hu; cases hu
    | cons r rest =>
      obtain ⟨rfl,rfl⟩ := cons.inj hl
      exact ⟨rest,s,u,rfl,h rest ▸ hu,rfl⟩
  · rintro ⟨rest,s,u,rfl,hu,rfl⟩
    exact ⟨first :: rest,s,u,rfl,(h rest).trans hu,rfl⟩

lemma lastStep_singleton {x first : α} {sibs : List α} :
    LastStep (walk join x 0 1) add (first :: sibs) t ↔ sibs = [] ∧ t = add x first := by
  constructor
  · rintro ⟨rest,s,u,hl,hu,rfl⟩
    rw [walk_short (Nat.le_refl 1)] at hu
    cases rest with
    | nil =>
      obtain ⟨rfl,rfl⟩ := cons.inj hl
      cases hu
      exact ⟨rfl,rfl⟩
    | cons r rest => cases hu
  · rintro ⟨rfl,rfl⟩
    exact ⟨[],first,x,rfl,rfl,rfl⟩

lemma walk_left {b : Nat} {x : α} {index : Nat} {sibs : List α} (hb : 0 < b) (hl : b ≤ 2 ^ m)
    (hi : index < 2 ^ m) :
    walk join x index (2 ^ m + b) sibs = some t ↔
      LastStep (walk join x index (2 ^ m)) join sibs t := by
  induction m generalizing b x index sibs with
  | zero =>
    obtain rfl : index = 0 := by omega
    obtain rfl : b = 1 := by omega
    cases sibs with
    | nil => simp [walk_nil,not_lastStep_nil]
    | cons s rest =>
      have hon : 2 ^ 0 = 1 := rfl
      rw [walk_even (by omega) (by omega),hon,lastStep_singleton]
      change walk join (join x s) 0 1 rest = some t ↔ _
      rw [walk_short (Nat.le_refl 1)]
      cases rest <;> simp [eq_comm]
  | succ m ih =>
    rw [Nat.pow_succ] at hl hi ⊢
    have hpo : 0 < 2 ^ m := Nat.two_pow_pos m
    have hh : (2 ^ m * 2 + b + 1) / 2 = 2 ^ m + (b + 1) / 2 := by omega
    have hs : (2 ^ m * 2 + 1) / 2 = 2 ^ m := by omega
    have hp : index % 2 = 1 ∨ index + 1 < 2 ^ m * 2 := by omega
    cases sibs with
    | nil =>
      rw [walk_nil (by omega) (by omega)]
      simp [not_lastStep_nil]
    | cons s rest =>
      by_cases ho : index % 2 = 1
      · rw [walk_odd (by omega) ho,hh,ih (by omega) (by omega) (by omega)]
        refine (lastStep_cons (fun rest => ?_) (walk_nil (by omega) hp)).symm
        rw [walk_odd (by omega) ho,hs]
      · rw [walk_even (by omega) (by omega),hh,ih (by omega) (by omega) (by omega)]
        refine (lastStep_cons (fun rest => ?_) (walk_nil (by omega) hp)).symm
        rw [walk_even (by omega) (by omega),hs]

lemma walk_right {b : Nat} {x : α} {i : Nat} {sibs : List α} (hi : i < b) (hl : b ≤ 2 ^ m) :
    walk join x (2 ^ m + i) (2 ^ m + b) sibs = some t ↔
      LastStep (walk join x i b) (fun u s => join s u) sibs t := by
  induction m generalizing b x i sibs with
  | zero =>
    obtain rfl : b = 1 := by omega
    obtain rfl : i = 0 := by omega
    cases sibs with
    | nil => simp [walk_nil,not_lastStep_nil]
    | cons s rest =>
      rw [walk_odd (by omega) (by omega),lastStep_singleton]
      change walk join (join s x) 0 1 rest = some t ↔ _
      rw [walk_short (Nat.le_refl 1)]
      cases rest <;> simp [eq_comm]
  | succ m ih =>
    rw [Nat.pow_succ] at hl ⊢
    have hpo : 0 < 2 ^ m := Nat.two_pow_pos m
    have hh : (2 ^ m * 2 + b + 1) / 2 = 2 ^ m + (b + 1) / 2 := by omega
    have hin : (2 ^ m * 2 + i) / 2 = 2 ^ m + i / 2 := by omega
    by_cases hp : i % 2 = 1 ∨ i + 1 < b
    · cases sibs with
      | nil =>
      rw [walk_nil (by omega) (by omega)]
      simp [not_lastStep_nil]
      | cons s rest =>
        by_cases ho : i % 2 = 1
        · rw [walk_odd (by omega) (by omega),hh,hin,ih (by omega) (by omega)]
          refine (lastStep_cons (fun rest => ?_) (walk_nil (by omega) hp)).symm
          exact walk_odd (by omega) ho s rest
        · rw [walk_even (by omega) (by omega),hh,hin,ih (by omega) (by omega)]
          refine (lastStep_cons (fun rest => ?_) (walk_nil (by omega) hp)).symm
          exact walk_even (by omega) (by omega) s rest
    · -- the last element of an odd level moves up alone, in the whole as in the half
      rw [walk_alone (by omega) (by omega) (by omega),hh,hin,ih (by omega) (by omega)]
      by_cases hon : b = 1
      · obtain rfl : i = 0 := by omega
        subst hon
        exact Iff.rfl
      · have hu : walk join x i b = walk join x (i / 2) ((b + 1) / 2) :=
          funext fun rest => walk_alone (by omega) (by omega) (by omega) rest
        rw [hu]

lemma map_ascend {join' : β → β → β} (hf : ∀ a b, f (join a b) = join' (f a) (f b)) (fuel : Nat)
    (x : α) (index width : Nat) (sibs : List α) : (ascend join fuel x index width sibs).map f =
      ascend join' fuel (f x) index width (sibs.map f) := by
  induction fuel generalizing x index width sibs with
  | zero => cases sibs <;> rfl
  | succ fuel ih =>
    by_cases hw : 1 < width
    · by_cases hp : index % 2 = 1 ∨ index + 1 < width
      · cases sibs with
        | nil => rw [ascend_nil hw hp,map_nil,ascend_nil hw hp,Option.map_none]
        | cons s rest =>
          by_cases hi : index % 2 = 1
          · rw [ascend_odd hw hi,ih,map_cons,ascend_odd hw hi,hf]
          · rw [ascend_even hw (by omega) (by omega),ih,map_cons,
              ascend_even hw (by omega) (by omega),hf]
      · rw [ascend_alone hw (by omega) (by omega),ih,ascend_alone hw (by omega) (by omega)]
    · rw [ascend_short (by omega),ascend_short (by omega)]
      cases sibs <;> rfl

structure Traced (α : Type) where
  value : α
  joined : List (α × α)

namespace Traced

def given (a : α) : Traced α := ⟨a, []⟩

def pair (base : α → α → α) (a b : Traced α) : Traced α :=
  ⟨base a.value b.value, (a.value, b.value) :: (a.joined ++ b.joined)⟩

end Traced

def joinedBy (join : α → α → α) (level : List α) : List (α × α) :=
  ((top (Traced.pair join) (level.map .given)).map Traced.joined).getD []

def walkedBy (join : α → α → α) (x : α) (index width : Nat) (siblings : List α) : List (α × α) :=
  ((walk (Traced.pair join) (.given x) index width (siblings.map .given)).map Traced.joined).getD []

lemma top_traced {lv : List α} (h : top join lv = some t) :
    top (Traced.pair join) (lv.map .given) = some ⟨t,joinedBy join lv⟩ := by
  have hv : (top (Traced.pair join) (lv.map .given)).map Traced.value =
      top join ((lv.map .given).map Traced.value) := map_top (fun _ _ => rfl) _
  rw [map_map,show (Traced.value ∘ Traced.given : α → α) = id from rfl,map_id,h] at hv
  obtain ⟨traced,ht,rfl⟩ := Option.map_eq_some_iff.mp hv
  rw [joinedBy,ht]
  rfl

variable {x : α} {rest : List α}

lemma walk_traced {index width : Nat} {sibs : List α}
    (h : walk join x index width sibs = some t) :
    walk (Traced.pair join) (.given x) index width (sibs.map .given) =
      some ⟨t,walkedBy join x index width sibs⟩ := by
  have hv : (walk (Traced.pair join) (.given x) index width (sibs.map .given)).map
      Traced.value = walk join x index width ((sibs.map .given).map Traced.value) :=
    map_ascend (fun _ _ => rfl) _ _ _ _ _
  rw [map_map,show (Traced.value ∘ Traced.given : α → α) = id from rfl,map_id] at hv
  obtain ⟨traced,ht,rfl⟩ := Option.map_eq_some_iff.mp (hv.trans h)
  rw [walkedBy,ht]
  rfl

lemma halves_map (h : Halves a b) : Halves (a.map f) (b.map f) := by
  obtain ⟨m,ha,hb,hl⟩ := h
  exact ⟨m,by simpa using ha,by simpa using hb,by simpa using hl⟩

lemma joinedBy_halves (h : Halves a b) {y : α} (hx : top join a = some x)
    (hy : top join b = some y) :
    joinedBy join (a ++ b) = (x,y) :: (joinedBy join a ++ joinedBy join b) := by
  obtain ⟨x',y',hx',hy',ht⟩ := top_halves (Traced.pair join) (halves_map (f := Traced.given) h)
  rw [top_traced hx] at hx'
  rw [top_traced hy] at hy'
  cases hx'
  cases hy'
  rw [joinedBy,map_append,ht]
  rfl

lemma walkedBy_left {b : Nat} {index : Nat} {s u : α} (hb : 0 < b)
    (hl : b ≤ 2 ^ m) (hi : index < 2 ^ m) (hu : walk join x index (2 ^ m) rest = some u) :
    walkedBy join x index (2 ^ m + b) (rest ++ [s]) =
      (u,s) :: walkedBy join x index (2 ^ m) rest := by
  have hs : walk (Traced.pair join) (.given x) index (2 ^ m + b) ((rest ++ [s]).map .given) =
      some (Traced.pair join ⟨u,walkedBy join x index (2 ^ m) rest⟩ (.given s)) :=
    (walk_left hb hl hi).mpr ⟨rest.map .given,.given s,_,map_append,walk_traced hu,rfl⟩
  rw [walkedBy,hs]
  simp [Traced.pair,Traced.given]

lemma walkedBy_right {b : Nat} {i : Nat} {s u : α} (hi : i < b)
    (hl : b ≤ 2 ^ m) (hu : walk join x i b rest = some u) :
    walkedBy join x (2 ^ m + i) (2 ^ m + b) (rest ++ [s]) = (s,u) :: walkedBy join x i b rest := by
  have hs : walk (Traced.pair join) (.given x) (2 ^ m + i) (2 ^ m + b) ((rest ++ [s]).map .given) =
        some (Traced.pair join (.given s) ⟨u,walkedBy join x i b rest⟩) :=
    (walk_right hi hl).mpr ⟨rest.map .given,.given s,_,map_append,walk_traced hu,rfl⟩
  rw [walkedBy,hs]
  simp [Traced.pair,Traced.given]

lemma top_mem {lv : List α} (h : top join lv = some t) :
    t ∈ lv ∨ ∃ p ∈ joinedBy join lv, t = join p.1 p.2 := by
  by_cases hl : 1 < lv.length
  · obtain ⟨a,b,rfl,ha⟩ := exists_halves hl
    obtain ⟨x,y,hx,hy,hxy⟩ := top_halves join ha
    rw [hxy] at h
    refine .inr ⟨(x,y),?_,(Option.some.inj h).symm⟩
    rw [joinedBy_halves ha hx hy]
    exact mem_cons_self
  · match lv, hl with
    | [], _ => cases h
    | [a], _ =>
      rw [top_singleton] at h
      exact .inl (Option.some.inj h ▸ mem_singleton_self a)
    | a :: b :: rest, hl => simp at hl

def JoinsApart (join : α → α → α) (ps qs : List (α × α)) : Prop :=
  ∀ p ∈ ps, ∀ q ∈ qs, join p.1 p.2 = join q.1 q.2 → p = q

lemma walk_sound {lv : List α} (hn : lv ≠ []) :
    ∀ {x : α} {index : Nat} {sibs : List α} {t : α}, index < lv.length →
      walk join x index lv.length sibs = some t → top join lv = some t →
      JoinsApart join (walkedBy join x index lv.length sibs) (joinedBy join lv) →
      lv[index]? = some x := by
  refine halves_induction (P := fun lv => ∀ {x : α} {index : Nat} {sibs : List α} {t : α},
    index < lv.length → walk join x index lv.length sibs = some t →
    top join lv = some t →
    JoinsApart join (walkedBy join x index lv.length sibs) (joinedBy join lv) →
    lv[index]? = some x) ?_ ?_ hn
  · intro a x index sibs t hi hw ht _
    obtain rfl : index = 0 := Nat.lt_one_iff.mp hi
    rw [length_singleton,walk_short (Nat.le_refl 1)] at hw
    cases sibs with
    | nil =>
      rw [top_singleton] at ht
      exact ht.trans hw.symm
    | cons => cases hw
  · intro a b hab iha ihb x index sibs t hi hw ht hap
    obtain ⟨tx,ty,htx,hty,hto⟩ := top_halves join hab
    rw [hto] at ht
    obtain ⟨m,ha,hb,hl⟩ := id hab
    rw [joinedBy_halves hab htx hty] at hap
    rw [length_append,ha] at hw hi hap
    by_cases hle : index < 2 ^ m
    · obtain ⟨rest,s,u,rfl,hu,rfl⟩ := (walk_left hb hl hle).mp hw
      rw [walkedBy_left hb hl hle hu] at hap
      have hpa := hap (u,s) mem_cons_self (tx,ty) mem_cons_self (Option.some.inj ht).symm
      rw [Prod.mk.injEq] at hpa
      rw [getElem?_append_left (by omega)]
      rw [← ha] at hu
      refine iha (by omega) hu (hpa.1 ▸ htx) fun p hp q hq => ?_
      exact hap p (mem_cons_of_mem _ (ha ▸ hp)) q (mem_cons_of_mem _ (mem_append_left _ hq))
    · obtain ⟨i,rfl⟩ := Nat.exists_eq_add_of_le (Nat.le_of_not_lt hle)
      have hi' : i < b.length := by omega
      obtain ⟨rest,s,u,rfl,hu,rfl⟩ := (walk_right hi' hl).mp hw
      rw [walkedBy_right hi' hl hu] at hap
      have hpa := hap (s,u) mem_cons_self (tx,ty) mem_cons_self (Option.some.inj ht).symm
      rw [Prod.mk.injEq] at hpa
      rw [getElem?_append_right (by omega),ha,Nat.add_sub_cancel_left]
      refine ihb hi' hu (hpa.2 ▸ hty) fun p hp q hq => ?_
      exact hap p (mem_cons_of_mem _ hp) q (mem_cons_of_mem _ (mem_append_right _ hq))

/-- The siblings beside the way from an element to the top, lowest first. -/
inductive PathTo (join : α → α → α) : List α → Nat → List α → Prop where
  | one (a : α) : PathTo join [a] 0 []
  | left {a b siblings : List α} {index : Nat} {y : α} (hab : Halves a b)
      (h : PathTo join a index siblings) (hy : top join b = some y) :
      PathTo join (a ++ b) index (siblings ++ [y])
  | right {a b siblings : List α} {index : Nat} {x : α} (hab : Halves a b)
      (h : PathTo join b index siblings) (hx : top join a = some x) :
      PathTo join (a ++ b) (a.length + index) (siblings ++ [x])

namespace PathTo

variable {lv sibs : List α} {index : Nat}

lemma walk (h : PathTo join lv index sibs) :
    ∃ x, lv[index]? = some x ∧ Lib.walk join x index lv.length sibs = top join lv := by
  induction h with
  | one a => exact ⟨a,rfl,walk_short (Nat.le_refl 1)⟩
  | @left a b sibs index y hab h hy ih =>
    obtain ⟨x,hx,hw⟩ := ih
    have hi : index < a.length := (List.getElem?_eq_some_iff.mp hx).1
    obtain ⟨tx,ty,htx,hty,ht⟩ := top_halves join hab
    obtain ⟨m,ha,hb,hl⟩ := hab
    refine ⟨x,by rw [getElem?_append_left hi,hx],?_⟩
    rw [ht,length_append,ha]
    obtain rfl := Option.some.inj (hty.symm.trans hy)
    exact (walk_left hb hl (ha ▸ hi)).mpr ⟨sibs,_,tx,rfl,ha ▸ hw.trans htx,rfl⟩
  | @right a b sibs index x hab h hx ih =>
    obtain ⟨z,hz,hw⟩ := ih
    have hi : index < b.length := (List.getElem?_eq_some_iff.mp hz).1
    obtain ⟨tx,ty,htx,hty,ht⟩ := top_halves join hab
    obtain ⟨m,ha,hb,hl⟩ := hab
    refine ⟨z,by rw [getElem?_append_right (by omega),Nat.add_sub_cancel_left,hz],?_⟩
    rw [ht,length_append,ha]
    obtain rfl := Option.some.inj (htx.symm.trans hx)
    exact (walk_right hi hl).mpr ⟨sibs,_,ty,rfl,hw.trans hty,rfl⟩

/-- A level of at most `2 ^ k` elements has paths of at most `k` siblings. -/
lemma length_le (h : PathTo join lv index sibs) {k : Nat} (hk : lv.length ≤ 2 ^ k) :
    sibs.length ≤ k := by
  induction h generalizing k with
  | one a => exact Nat.zero_le k
  | left hab h hy ih =>
    obtain ⟨m,ha,hb,hl⟩ := hab
    rw [length_append] at hk
    have hm : m < k := (Nat.pow_lt_pow_iff_right (by omega)).mp (by omega : 2 ^ m < 2 ^ k)
    rw [length_append,length_singleton]
    have := ih (Nat.le_of_eq ha)
    omega
  | right hab h hx ih =>
    obtain ⟨m,ha,hb,hl⟩ := hab
    rw [length_append] at hk
    have hm : m < k := (Nat.pow_lt_pow_iff_right (by omega)).mp (by omega : 2 ^ m < 2 ^ k)
    rw [length_append,length_singleton]
    have := ih hl
    omega

end PathTo

lemma top_injective {l' : List α} (hn : l ≠ []) (hn' : l' ≠ [])
    (hap : JoinsApart join (joinedBy join l) (joinedBy join l'))
    (hl : ∀ a ∈ l, ∀ q ∈ joinedBy join l', a ≠ join q.1 q.2)
    (hl' : ∀ a ∈ l', ∀ p ∈ joinedBy join l, a ≠ join p.1 p.2) (h : top join l = top join l') :
    l = l' := by
  revert l' hn'
  refine halves_induction (P := fun l => ∀ {l' : List α}, l' ≠ [] →
    JoinsApart join (joinedBy join l) (joinedBy join l') →
    (∀ a ∈ l, ∀ q ∈ joinedBy join l', a ≠ join q.1 q.2) →
    (∀ a ∈ l', ∀ p ∈ joinedBy join l, a ≠ join p.1 p.2) → top join l = top join l' → l = l')
    ?_ ?_ hn
  · intro a l' hn' _ hl _ h
    by_cases hlo : 1 < l'.length
    · obtain ⟨a',b',rfl,ha⟩ := exists_halves hlo
      obtain ⟨x,y,hx,hy,hxy⟩ := top_halves join ha
      rw [joinedBy_halves ha hx hy] at hl
      rw [hxy,top_singleton] at h
      exact absurd (Option.some.inj h) (hl a mem_cons_self (x,y) mem_cons_self)
    · obtain ⟨a',rfl⟩ := length_eq_one_iff.mp
        (by have := length_pos_of_ne_nil hn'; omega : l'.length = 1)
      rw [top_singleton,top_singleton] at h
      rw [Option.some.inj h]
  · intro a b ha iha ihb l' hn' hap hl hl' h
    obtain ⟨x,y,hx,hy,hxy⟩ := top_halves join ha
    rw [joinedBy_halves ha hx hy] at hap hl'
    by_cases hlo : 1 < l'.length
    · obtain ⟨a',b',rfl,hab'⟩ := exists_halves hlo
      obtain ⟨x',y',hx',hy',hxy'⟩ := top_halves join hab'
      rw [joinedBy_halves hab' hx' hy'] at hap hl
      rw [hxy,hxy'] at h
      have hpa := hap (x,y) mem_cons_self (x',y') mem_cons_self (Option.some.inj h)
      rw [Prod.mk.injEq] at hpa
      obtain ⟨_,ha',hp',_⟩ := hab'
      have han : a' ≠ [] := ne_nil_of_length_pos (by rw [ha']; exact Nat.two_pow_pos _)
      have hb : b' ≠ [] := ne_nil_of_length_pos hp'
      have hf : a = a' := by
        refine iha han (fun p hp q hq => ?_) (fun z hz q hq => ?_) (fun z hz p hp => ?_)
          (by rw [hx,hx',hpa.1])
        · exact hap p (mem_cons_of_mem _ (mem_append_left _ hp)) q
            (mem_cons_of_mem _ (mem_append_left _ hq))
        · exact hl z (mem_append_left _ hz) q (mem_cons_of_mem _ (mem_append_left _ hq))
        · exact hl' z (mem_append_left _ hz) p (mem_cons_of_mem _ (mem_append_left _ hp))
      have hs : b = b' := by
        refine ihb hb (fun p hp q hq => ?_) (fun z hz q hq => ?_) (fun z hz p hp => ?_)
          (by rw [hy,hy',hpa.2])
        · exact hap p (mem_cons_of_mem _ (mem_append_right _ hp)) q
            (mem_cons_of_mem _ (mem_append_right _ hq))
        · exact hl z (mem_append_right _ hz) q (mem_cons_of_mem _ (mem_append_right _ hq))
        · exact hl' z (mem_append_right _ hz) p (mem_cons_of_mem _ (mem_append_right _ hp))
      rw [hf,hs]
    · obtain ⟨a',rfl⟩ := length_eq_one_iff.mp
        (by have := length_pos_of_ne_nil hn'; omega : l'.length = 1)
      rw [hxy,top_singleton] at h
      exact absurd (Option.some.inj h).symm (hl' a' mem_cons_self (x,y) mem_cons_self)

end Astrolune.Lib
