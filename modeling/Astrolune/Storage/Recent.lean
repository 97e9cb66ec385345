import Astrolune.Storage.Record

namespace Astrolune.Storage
open Lib List Option

def maxIndexedTransactions : Nat := 100000

abbrev Place := UInt64 × Nat

/-- The last transactions of the chain: where each one was last seen, and all of them, oldest
first. -/
structure RecentTransactions where
  byId : OrderedMap Hash256 Place
  order : List (Hash256 × Place)

namespace RecentTransactions

def default : RecentTransactions := ⟨.empty, []⟩

def forget (byId : OrderedMap Hash256 Place) (e : Hash256 × Place) : OrderedMap Hash256 Place :=
  if byId.get e.1 = some e.2 then byId.erase e.1 else byId

def evict (byId : OrderedMap Hash256 Place) : List (Hash256 × Place) → RecentTransactions
  | [] => ⟨byId, []⟩
  | e :: rest =>
    if maxIndexedTransactions < rest.length + 1 then evict (forget byId e) rest
    else ⟨byId, e :: rest⟩

def insertAt (t : RecentTransactions) (id : Hash256) (place : Place) : RecentTransactions :=
  evict (t.byId.insert id place) (t.order ++ [(id, place)])

def insert (H : Hasher) (t : RecentTransactions) (block : Block) :
    RecentTransactions :=
  block.transactions.zipIdx.foldl
    (fun t e => t.insertAt (e.1.computeTxId H) (block.header.height, e.2)) t

def get (t : RecentTransactions) (id : Hash256) : Option Place := t.byId.get id

def prune (t : RecentTransactions) (before : UInt64) : RecentTransactions :=
  ⟨t.byId.retain (before ≤ ·.1), t.order.filter (before ≤ ·.2.1)⟩

/-- The places stand in the order of their heights, and none is above `top`. -/
structure Upto (t : RecentTransactions) (top : UInt64) : Prop where
  sorted : t.order.Pairwise fun a b => a.2.1 ≤ b.2.1
  order : ∀ e ∈ t.order, e.2.1 ≤ top
  byId : ∀ id place, t.byId.get id = some place → place.1 ≤ top

lemma upto_default (top : UInt64) : default.Upto top :=
  ⟨.nil,fun _ h => (not_mem_nil h).elim,fun _ _ h => nomatch h⟩

variable {t : RecentTransactions} {top pre : UInt64} {byId : OrderedMap Hash256 Place}

lemma Upto.mono {top' : UInt64} (h : t.Upto top) (hl : top ≤ top') : t.Upto top' :=
  ⟨h.sorted,fun e he => UInt64.le_trans (h.order e he) hl,
    fun id place hp => UInt64.le_trans (h.byId id place hp) hl⟩

lemma get_forget_of_some {e : Hash256 × Place} {id : Hash256} {place : Place}
    (h : (forget byId e).get id = some place) : byId.get id = some place := by
  unfold forget at h
  split at h
  · rw [OrderedMap.get_erase] at h
    split at h
    · cases h
    · exact h
  · exact h

lemma upto_evict {l : List (Hash256 × Place)} (h : (RecentTransactions.mk byId l).Upto top) :
    (evict byId l).Upto top := by
  induction l generalizing byId with
  | nil => exact h
  | cons e rest ih =>
    rw [evict]
    split
    · exact ih ⟨(pairwise_cons.mp h.sorted).2,fun e' he' => h.order e' (.tail e he'),
        fun id place hp => h.byId id place (get_forget_of_some hp)⟩
    · exact h

lemma upto_insertAt (h : t.Upto top) (id : Hash256) (index : Nat) :
    (t.insertAt id (top,index)).Upto top := by
  refine upto_evict ⟨?_,fun e he => ?_,fun id' place hp => ?_⟩
  · refine pairwise_append.mpr ⟨h.sorted,pairwise_singleton _ _,fun a ha b hb => ?_⟩
    obtain rfl := mem_singleton.mp hb
    exact h.order a ha
  · rcases mem_append.mp he with he | he
    · exact h.order e he
    · obtain rfl := mem_singleton.mp he
      exact UInt64.le_refl top
  · rw [OrderedMap.get_insert] at hp
    split at hp
    · cases hp
      exact UInt64.le_refl top
    · exact h.byId id' place hp

/-- Everything below a height can be dropped before or after the oldest entries are. An entry that
goes either way takes nothing with it that the other way keeps. -/
lemma prune_evict {l : List (Hash256 × Place)} (h : l.Pairwise fun a b => a.2.1 ≤ b.2.1) :
    (evict byId l).prune pre = evict (byId.retain (pre ≤ ·.1)) (l.filter (pre ≤ ·.2.1)) := by
  induction l generalizing byId with
  | nil => rfl
  | cons e rest ih =>
    obtain ⟨hl,hr⟩ := pairwise_cons.mp h
    by_cases hke : pre ≤ e.2.1
    · have hal : rest.filter (pre ≤ ·.2.1) = rest := filter_eq_self.mpr fun a ha =>
        decide_eq_true (UInt64.le_trans hke (hl a ha))
      have hf : (forget byId e).retain (pre ≤ ·.1) = forget (byId.retain (pre ≤ ·.1)) e := by
        have hsa : (byId.retain (pre ≤ ·.1)).get e.1 = some e.2 ↔ byId.get e.1 = some e.2 := by
          rw [OrderedMap.get_retain,filter_eq_some_iff]
          simp [hke]
        unfold forget
        by_cases hse : byId.get e.1 = some e.2
        · rw [if_pos hse,if_pos (hsa.mpr hse)]
          refine OrderedMap.ext_get fun k => ?_
          rw [OrderedMap.get_retain,OrderedMap.get_erase,OrderedMap.get_erase, OrderedMap.get_retain]
          split <;> rfl
        · rw [if_neg hse,if_neg fun hs => hse (hsa.mp hs)]
      rw [filter_cons_of_pos (by simpa using hke),hal,evict,evict]
      split
      · rw [ih hr,hal,hf]
      · rw [prune,filter_cons_of_pos (by simpa using hke),hal]
    · have hf : (forget byId e).retain (pre ≤ ·.1) = byId.retain (pre ≤ ·.1) := by
        unfold forget
        split
        · next hse =>
          refine OrderedMap.ext_get fun k => ?_
          rw [OrderedMap.get_retain,OrderedMap.get_erase,OrderedMap.get_retain]
          split
          · next hk =>
            rw [hk,hse,filter_some,if_neg (by simpa using hke)]
            simp
          · rfl
        · rfl
      rw [filter_cons_of_neg (by simpa using hke),evict]
      split
      · rw [ih hr,hf]
      · next hro =>
        rw [prune,filter_cons_of_neg (by simpa using hke)]
        have hsh : (rest.filter (pre ≤ ·.2.1)).length ≤ maxIndexedTransactions :=
          (length_filter_le _ rest).trans (by omega)
        generalize rest.filter (pre ≤ ·.2.1) = kept at hsh
        cases kept with
        | nil => rfl
        | cons first others =>
          rw [length_cons] at hsh
          rw [evict,if_neg (by omega)]

lemma prune_insertAt (h : t.Upto top) (hbe : pre ≤ top) (id : Hash256) (index : Nat) :
    (t.insertAt id (top,index)).prune pre = (t.prune pre).insertAt id (top,index) := by
  have hs : (t.order ++ [(id,top,index)]).Pairwise fun a b => a.2.1 ≤ b.2.1 := by
    refine pairwise_append.mpr ⟨h.sorted,pairwise_singleton _ _,fun a ha b hb => ?_⟩
    obtain rfl := mem_singleton.mp hb
    exact h.order a ha
  have hm : (t.byId.insert id (top,index)).retain (pre ≤ ·.1) =
      (t.byId.retain (pre ≤ ·.1)).insert id (top,index) := by
    refine OrderedMap.ext_get fun k => ?_
    rw [OrderedMap.get_retain,OrderedMap.get_insert,OrderedMap.get_insert,OrderedMap.get_retain]
    split
    · simp [hbe]
    · rfl
  rw [insertAt,prune_evict hs,hm,filter_append, filter_cons_of_pos (by simpa using hbe)]
  rfl

variable {H : Hasher}

lemma upto_insert {block : Block} (h : t.Upto block.header.height) :
    (t.insert H block).Upto block.header.height := by
  unfold insert
  generalize block.transactions.zipIdx = l
  induction l generalizing t with
  | nil => exact h
  | cons e rest ih => exact ih (upto_insertAt h _ _)

lemma prune_insert {block : Block} (h : t.Upto block.header.height)
    (hb : pre ≤ block.header.height) :
    (t.insert H block).prune pre = (t.prune pre).insert H block := by
  unfold insert
  generalize block.transactions.zipIdx = l
  induction l generalizing t with
  | nil => rfl
  | cons e rest ih =>
    rw [foldl_cons,foldl_cons,ih (upto_insertAt h _ _),prune_insertAt h hb]

lemma prune_above (h : t.Upto top) (ha : top < pre) : t.prune pre = default := by
  have hm : t.byId.retain (pre ≤ ·.1) = .empty := by
    refine OrderedMap.ext_get fun k => ?_
    rw [OrderedMap.get_retain]
    change _ = none
    rw [filter_eq_none_iff]
    intro place hp
    have := UInt64.lt_of_le_of_lt (h.byId k place hp) ha
    simpa using this
  have ho : t.order.filter (pre ≤ ·.2.1) = [] := by
    refine filter_eq_nil_iff.mpr fun e he => ?_
    have := UInt64.lt_of_le_of_lt (h.order e he) ha
    simpa using this
  rw [prune,hm,ho]
  rfl

end RecentTransactions
end Astrolune.Storage
