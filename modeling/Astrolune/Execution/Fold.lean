import Astrolune.Execution.Payment

namespace Astrolune.Execution
open Lib List

def maxFoldTransactions : Nat := 8192

def maxBalance : Int := 2 ^ 64 - 1

/-- A partial translation of a balance, defined from `low` to `high`. -/
structure Guard where
  delta : Int
  low : Int
  high : Int
  deriving DecidableEq

def InI128 (x : Int) : Prop := -2 ^ 127 ≤ x ∧ x < 2 ^ 127

instance decidableInI128 (x : Int) : Decidable (InI128 x) := instDecidableAnd

/-- The result of a checked `i128` operation. -/
def i128 (x : Int) : Except ExecutionError Int := do
  ensure .conflict (InI128 x)
  return x

namespace Guard

def identity : Guard := ⟨0, 0, maxBalance⟩

/-- `Guard::then`. -/
def andThen (g next : Guard) : Except ExecutionError Guard := do
  let delta ← i128 (g.delta + next.delta)
  let low ← i128 (next.low - g.delta)
  let high ← i128 (next.high - g.delta)
  ensure .conflict (max g.low low ≤ min g.high high)
  return ⟨delta, max g.low low, min g.high high⟩

def accepts (g : Guard) (balance : UInt64) : Bool := g.low ≤ balance.toNat ∧ balance.toNat ≤ g.high

end Guard

/-- The two events of a payment: the sender needs the reserve and pays the debit. -/
inductive BalanceStep where
  | debit (amount reserve : UInt64)
  | credit (amount : UInt64)

namespace BalanceStep

def delta : BalanceStep → Int
  | debit amount _ => -amount.toNat
  | credit amount => amount.toNat

def minimum : BalanceStep → Int
  | debit _ reserve => reserve.toNat
  | credit _ => 0

def guard : BalanceStep → Guard
  | debit amount reserve => ⟨-amount.toNat, reserve.toNat, maxBalance⟩
  | credit amount => ⟨amount.toNat, 0, maxBalance - amount.toNat⟩

end BalanceStep

/-- The steps one by one: no balance is below the minimum or above the range. -/
def Admits : List BalanceStep → Int → Prop
  | [], _ => True
  | s :: steps, b => s.minimum ≤ b ∧ b ≤ maxBalance ∧ b + s.delta ≤ maxBalance ∧ Admits steps (b + s.delta)

def foldGuards {ι : Type} (summary : ι → Except ExecutionError Guard) (items : List ι) :
    Except ExecutionError Guard :=
  items.foldlM (fun g item => do g.andThen (← summary item)) .identity

/-- The summary of one segment. -/
def summarize (steps : List BalanceStep) : Except ExecutionError Guard := foldGuards (fun s => .ok s.guard) steps

/-- The guard before the end of an account's last segment, from the summaries of its segments. -/
def foldSegments (segments : List (List BalanceStep)) : Except ExecutionError Guard :=
  foldGuards summarize segments

inductive Bracketing where
  | leaf (s : BalanceStep)
  | node (l r : Bracketing)

namespace Bracketing

def steps : Bracketing → List BalanceStep
  | leaf s => [s]
  | node l r => l.steps ++ r.steps

def compose : Bracketing → Except ExecutionError Guard
  | leaf s => .ok s.guard
  | node l r => do
    let g ← l.compose
    g.andThen (← r.compose)

def NoOverflow : Bracketing → Prop
  | leaf _ => True
  | node l r => l.NoOverflow ∧ r.NoOverflow ∧ ∀ g next, l.compose = .ok g → r.compose = .ok next →
      InI128 (g.delta + next.delta) ∧ InI128 (next.low - g.delta) ∧ InI128 (next.high - g.delta)

end Bracketing

def total (steps : List BalanceStep) : Int := (steps.map BalanceStep.delta).sum

structure Guard.Covers (g : Guard) (steps : List BalanceStep) : Prop where
  delta : g.delta = total steps
  order : g.low ≤ g.high
  runs : ∀ b, g.low ≤ b ∧ b ≤ g.high ↔ Admits steps b

/-- The guard of the steps, or the refusal when no balance runs through them. -/
def Settles (r : Except ExecutionError Guard) (steps : List BalanceStep) : Prop :=
  (∃ g, r = .ok g ∧ g.Covers steps) ∨ r = .error .conflict ∧ ∀ b, ¬Admits steps b

variable {g next : Guard} {xs ys steps : List BalanceStep} {r r' : Except ExecutionError Guard} {b : Int}

lemma i128_of {x : Int} (h : InI128 x) : i128 x = .ok x := by rw [i128,ensure_of h,ok_bind,pure_eq_ok]

lemma admits_append : Admits (xs ++ ys) b ↔ Admits xs b ∧ Admits ys (b + total xs) := by
  induction xs generalizing b with
  | nil => simp [Admits,total]
  | cons s xs ih =>
    rw [cons_append,Admits,Admits,ih,total,total,map_cons,sum_cons,← Int.add_assoc]
    tauto

lemma total_append : total (xs ++ ys) = total xs + total ys := by
  rw [total,map_append,sum_append,total,total]

lemma total_bounds : -(2 ^ 64 * steps.length) ≤ total steps ∧ total steps ≤ 2 ^ 64 * steps.length := by
  induction steps with
  | nil => simp [total]
  | cons s steps ih =>
    have hs : -2 ^ 64 ≤ s.delta ∧ s.delta ≤ 2 ^ 64 := by
      cases s with
      | debit amount _ =>
        have := amount.toNat_lt
        simp only [BalanceStep.delta]
        omega
      | credit amount =>
        have := amount.toNat_lt
        simp only [BalanceStep.delta]
        omega
    simp only [total,map_cons,sum_cons,length_cons] at ih ⊢
    push_cast
    omega

lemma bounds_of_admits (hn : steps ≠ []) (h : Admits steps b) : 0 ≤ b ∧ b ≤ maxBalance := by
  cases steps with
  | nil => exact absurd rfl hn
  | cons s steps =>
    refine ⟨?_,h.2.1⟩
    have hm := h.1
    cases s with
    | debit _ reserve => exact (Int.natCast_nonneg _).trans hm
    | credit _ => exact hm

lemma covers_guard (s : BalanceStep) : s.guard.Covers [s] := by
  cases s with
  | debit amount reserve =>
    have := amount.toNat_lt
    have := reserve.toNat_lt
    refine ⟨by simp [total,BalanceStep.guard,BalanceStep.delta],?_,fun b => ?_⟩
    · simp only [BalanceStep.guard,maxBalance]
      omega
    · simp only [BalanceStep.guard,Admits,BalanceStep.minimum,BalanceStep.delta,and_true]
      omega
  | credit amount =>
    have := amount.toNat_lt
    refine ⟨by simp [total,BalanceStep.guard,BalanceStep.delta],?_,fun b => ?_⟩
    · simp only [BalanceStep.guard,maxBalance]
      omega
    · simp only [BalanceStep.guard,Admits,BalanceStep.minimum,BalanceStep.delta,and_true]
      omega

namespace Guard.Covers

lemma bounds (h : g.Covers steps) (hn : steps ≠ []) : 0 ≤ g.low ∧ g.high ≤ maxBalance :=
  ⟨(bounds_of_admits hn ((h.runs _).mp ⟨le_refl _,h.order⟩)).1,
    (bounds_of_admits hn ((h.runs _).mp ⟨h.order,le_refl _⟩)).2⟩

lemma unique (h : g.Covers steps) (h' : next.Covers steps) : g = next := by
  have hl := (h'.runs _).mpr ((h.runs _).mp ⟨le_refl _,h.order⟩)
  have hh := (h'.runs _).mpr ((h.runs _).mp ⟨h.order,le_refl _⟩)
  have hl' := (h.runs _).mpr ((h'.runs _).mp ⟨le_refl _,h'.order⟩)
  have hh' := (h.runs _).mpr ((h'.runs _).mp ⟨h'.order,le_refl _⟩)
  obtain ⟨delta,low,high⟩ := g
  obtain ⟨delta',low',hi'⟩ := next
  have hd : delta = delta' := h.delta.trans h'.delta.symm
  dsimp only at hl hh hl' hh'
  simp only [Guard.mk.injEq]
  exact ⟨hd,by omega,by omega⟩

lemma inI128 (h : g.Covers xs) (h' : next.Covers ys) (hn : ys ≠ [])
    (hl : (xs ++ ys).length ≤ maxFoldTransactions) :
    InI128 (g.delta + next.delta) ∧ InI128 (next.low - g.delta) ∧ InI128 (next.high - g.delta) := by
  obtain ⟨hlo,hh⟩ := h'.bounds hn
  have ho := h'.order
  have hx := @total_bounds xs
  have hy := @total_bounds ys
  rw [length_append,maxFoldTransactions] at hl
  rw [h.delta,h'.delta]
  simp only [InI128,maxBalance] at *
  omega

lemma andThen (h : g.Covers xs) (h' : next.Covers ys) (hn : ys ≠ [])
    (hl : (xs ++ ys).length ≤ maxFoldTransactions) : Settles (g.andThen next) (xs ++ ys) := by
  obtain ⟨hd,hlo,hh⟩ := h.inI128 h' hn hl
  have hr : ∀ b, max g.low (next.low - g.delta) ≤ b ∧ b ≤ min g.high (next.high - g.delta) ↔
      Admits (xs ++ ys) b := by
    intro b
    rw [admits_append,← h.runs,← h'.runs,← h.delta]
    omega
  rw [Guard.andThen,i128_of hd,i128_of hlo,i128_of hh,ok_bind,ok_bind,ok_bind]
  by_cases ho : max g.low (next.low - g.delta) ≤ min g.high (next.high - g.delta)
  · refine .inl ⟨_,by rw [ensure_of ho,ok_bind,pure_eq_ok],?_,ho,hr⟩
    rw [total_append,← h.delta,← h'.delta]
  · refine .inr ⟨by rw [ensure,if_neg ho]; rfl,fun b hb => ho ?_⟩
    exact ((hr b).mpr hb).1.trans ((hr b).mpr hb).2

lemma identity_andThen (h : g.Covers steps) (hn : steps ≠ []) (hl : steps.length ≤ maxFoldTransactions) :
    Guard.identity.andThen g = .ok g := by
  obtain ⟨hlo,hh⟩ := h.bounds hn
  have ho := h.order
  have ht := @total_bounds steps
  rw [maxFoldTransactions] at hl
  simp only [← h.delta,maxBalance] at ht hh
  have ha : InI128 g.delta ∧ InI128 g.low ∧ InI128 g.high := by
    simp only [InI128]
    omega
  rw [Guard.andThen,Guard.identity,Int.zero_add,Int.sub_zero,Int.sub_zero,i128_of ha.1,i128_of ha.2.1,
    i128_of ha.2.2,ok_bind,ok_bind,ok_bind,max_eq_right hlo,maxBalance,min_eq_right hh,
    ensure_of ho,ok_bind,pure_eq_ok]

end Guard.Covers

namespace Settles

lemma unique (h : Settles r steps) (h' : Settles r' steps) : r = r' := by
  rcases h with ⟨g,rfl,hg⟩ | ⟨rfl,hn⟩ <;> rcases h' with ⟨g',rfl,hg'⟩ | ⟨rfl,hn'⟩
  · rw [hg.unique hg']
  · exact absurd ((hg.runs _).mp ⟨le_refl _,hg.order⟩) (hn' _)
  · exact absurd ((hg'.runs _).mp ⟨le_refl _,hg'.order⟩) (hn _)
  · rfl

lemma bind (h : Settles r xs) (h' : Settles r' ys) (hne : ys ≠ [])
    (hl : (xs ++ ys).length ≤ maxFoldTransactions) :
    Settles (do let g ← r; g.andThen (← r')) (xs ++ ys) := by
  rcases h with ⟨g,rfl,hg⟩ | ⟨rfl,hno⟩
  · rcases h' with ⟨next,rfl,hn⟩ | ⟨rfl,hno⟩
    · exact hg.andThen hn hne hl
    · exact .inr ⟨rfl,fun b hb => hno _ (admits_append.mp hb).2⟩
  · exact .inr ⟨rfl,fun b hb => hno _ (admits_append.mp hb).1⟩

section

variable {ι : Type} {summary : ι → Except ExecutionError Guard} {part : ι → List BalanceStep} {items : List ι}

lemma foldlM (h : Settles r xs) (ha : ∀ i ∈ items, part i ≠ [] ∧ Settles (summary i) (part i))
    (hl : (xs ++ items.flatMap part).length ≤ maxFoldTransactions) :
    Settles (do let g ← r; items.foldlM (fun g i => do g.andThen (← summary i)) g) (xs ++ items.flatMap part) := by
  induction items generalizing r xs with
  | nil =>
    simp only [flatMap_nil,append_nil,foldlM_nil,bind_pure]
    exact h
  | cons i items ih =>
    rw [forall_mem_cons] at ha
    rw [flatMap_cons,← append_assoc] at hl ⊢
    have hn := h.bind ha.1.2 ha.1.1 (by rw [length_append] at hl; omega)
    have hr := ih hn ha.2 hl
    simp only [bind_assoc] at hr
    simp only [foldlM_cons,bind_assoc]
    exact hr

lemma foldGuards (hn : items ≠ []) (ha : ∀ i ∈ items, part i ≠ [] ∧ Settles (summary i) (part i))
    (hl : (items.flatMap part).length ≤ maxFoldTransactions) :
    Settles (foldGuards summary items) (items.flatMap part) := by
  cases items with
  | nil => exact absurd rfl hn
  | cons i items =>
    rw [forall_mem_cons] at ha
    rw [flatMap_cons] at hl ⊢
    have hf : (do Guard.identity.andThen (← summary i)) = summary i := by
      rcases ha.1.2 with ⟨g,hg,hc⟩ | ⟨hg,-⟩
      · rw [hg,ok_bind,hc.identity_andThen ha.1.1 (by rw [length_append] at hl; omega)]
      · rw [hg]
        rfl
    have hr := ha.1.2.foldlM ha.2 hl
    rw [← hf] at hr
    rwa [Execution.foldGuards,foldlM_cons]

end

lemma summarize (hn : steps ≠ []) (hl : steps.length ≤ maxFoldTransactions) :
    Settles (summarize steps) steps := by
  have hf := @foldGuards BalanceStep (fun s => .ok s.guard) (fun s => [s]) steps hn
    (fun s _ => ⟨cons_ne_nil _ _,.inl ⟨_,rfl,covers_guard s⟩⟩) (by simpa using hl)
  rwa [flatMap_singleton'] at hf

end Settles

namespace Bracketing

variable {t : Bracketing}

lemma steps_ne_nil (t : Bracketing) : t.steps ≠ [] := by
  induction t with
  | leaf s => exact cons_ne_nil _ _
  | node l r ihl _ => simp [steps,ihl]

lemma settles (hl : t.steps.length ≤ maxFoldTransactions) : Settles t.compose t.steps := by
  induction t with
  | leaf s => exact .inl ⟨_,rfl,covers_guard s⟩
  | node l r ihl ihr =>
    rw [steps,length_append] at hl
    exact (ihl (by omega)).bind (ihr (by omega)) r.steps_ne_nil (by rw [length_append]; omega)

lemma covers_of_compose (hl : t.steps.length ≤ maxFoldTransactions) (h : t.compose = .ok g) :
    g.Covers t.steps := by
  rcases settles hl with ⟨fd,hf,hc⟩ | ⟨he,-⟩
  · rw [h] at hf
    cases hf
    exact hc
  · rw [h] at he
    cases he

lemma noOverflow (hl : t.steps.length ≤ maxFoldTransactions) : t.NoOverflow := by
  induction t with
  | leaf s => trivial
  | node l r ihl ihr =>
    have hb := hl
    rw [steps,length_append] at hb
    refine ⟨ihl (by omega),ihr (by omega),fun g next hg hn => ?_⟩
    exact (covers_of_compose (by omega) hg).inI128 (covers_of_compose (by omega) hn) r.steps_ne_nil hl

end Bracketing

/-- Guards compose to the same guard in every bracketing and segmentation, which accepts what the
steps accept one by one. -/
theorem guards_compose_exactly (t : Bracketing) (hlen : t.steps.length ≤ maxFoldTransactions) :
    t.NoOverflow ∧ t.compose = summarize t.steps ∧
    (∀ g, t.compose = .ok g → ∀ b : UInt64, g.accepts b ↔ Admits t.steps b.toNat) ∧
    (∀ e, t.compose = .error e → ∀ b : UInt64, ¬Admits t.steps b.toNat) ∧
    ∀ segments, (∀ segment ∈ segments, segment ≠ []) → segments.flatten = t.steps →
      foldSegments segments = t.compose := by
  have hs := Bracketing.settles hlen
  refine ⟨Bracketing.noOverflow hlen,hs.unique (.summarize t.steps_ne_nil hlen),fun g hg b => ?_,
    fun e he b => ?_,fun segments ha hf => ?_⟩
  · rw [← (Bracketing.covers_of_compose hlen hg).runs,Guard.accepts,decide_eq_true_eq]
  · rcases hs with ⟨g,hg,-⟩ | ⟨-,hno⟩
    · rw [he] at hg
      cases hg
    · exact hno _
  · have hn : segments ≠ [] := by
      rintro rfl
      exact t.steps_ne_nil hf.symm
    have hl : ∀ segment ∈ segments, segment.length ≤ maxFoldTransactions := fun segment hm =>
      (sublist_flatten_of_mem hm).length_le.trans (hf ▸ hlen)
    have hfo := @Settles.foldGuards _ summarize id segments hn
      (fun segment hm => ⟨ha segment hm,.summarize (ha segment hm) (hl segment hm)⟩)
      (by rwa [flatMap_id,hf])
    rw [flatMap_id,hf] at hfo
    exact hfo.unique hs

theorem guards_compose_credit_debit :
    Bracketing.compose (.node (.leaf (.credit 5)) (.leaf (.debit 3 9))) = summarize [.credit 5, .debit 3 9] ∧
    summarize [.credit 5, .debit 3 9] = .ok ⟨2, 4, 2 ^ 64 - 6⟩ :=
  ⟨(guards_compose_exactly (.node (.leaf (.credit 5)) (.leaf (.debit 3 9))) (by decide)).2.1,by decide +kernel⟩

end Astrolune.Execution
