import Mathlib.Algebra.GroupWithZero.Nat
import Mathlib.Data.List.Lex
import Mathlib.Data.List.Pairwise
import Mathlib.Data.List.Sort
import Mathlib.Tactic.Common

namespace Astrolune.Lib
open List Option

instance linearOrderUInt8 : LinearOrder UInt8 where
  le_refl a := UInt8.le_refl a
  le_trans _ _ _ := UInt8.le_trans
  lt_iff_le_not_ge a b := by
    rw [UInt8.lt_iff_toNat_lt, UInt8.le_iff_toNat_le, UInt8.le_iff_toNat_le]
    omega
  le_antisymm _ _ := UInt8.le_antisymm
  le_total := UInt8.le_total
  toDecidableLE := inferInstance
  toDecidableEq := inferInstance
  toDecidableLT := inferInstance

@[ext] structure OrderedMap (K V : Type) [LinearOrder K] where
  entries : List (K × V)
  sorted : entries.Pairwise fun a b => a.1 < b.1

namespace OrderedMap

variable {K V : Type} [LinearOrder K]

instance [DecidableEq V] : DecidableEq (OrderedMap K V) := fun a b =>
  decidable_of_iff (a.entries = b.entries) OrderedMap.ext_iff.symm

def empty : OrderedMap K V := ⟨[], .nil⟩

def find (k : K) : List (K × V) → Option V
  | [] => none
  | e :: rest => if k = e.1 then some e.2 else find k rest

def get (m : OrderedMap K V) (k : K) : Option V := find k m.entries

def insertEntry (k : K) (v : V) : List (K × V) → List (K × V)
  | [] => [(k, v)]
  | e :: rest =>
    if k < e.1 then (k, v) :: e :: rest
    else if k = e.1 then (k, v) :: rest
    else e :: insertEntry k v rest

variable {k : K} {v : V} {l : List (K × V)} {m : OrderedMap K V}

lemma mem_insertEntry {e : K × V} (h : e ∈ insertEntry k v l) : e = (k,v) ∨ e ∈ l := by
  induction l with
  | nil => simpa [insertEntry] using h
  | cons hd rest ih =>
    unfold insertEntry at h
    split_ifs at h
    · simpa using h
    · rcases mem_cons.mp h with he | he
      · exact .inl he
      · exact .inr (mem_cons_of_mem _ he)
    · rcases mem_cons.mp h with he | he
      · exact .inr (he ▸ mem_cons_self)
      · exact (ih he).imp_right (mem_cons_of_mem _)

lemma sorted_insertEntry (h : l.Pairwise fun a b => a.1 < b.1) :
    (insertEntry k v l).Pairwise fun a b => a.1 < b.1 := by
  induction l with
  | nil => simp [insertEntry]
  | cons hd rest ih =>
    have hh := pairwise_cons.mp h
    unfold insertEntry
    split_ifs with hl heq
    · refine pairwise_cons.mpr ⟨?_,h⟩
      intro e he
      rcases mem_cons.mp he with rfl | he
      · exact hl
      · exact hl.trans (hh.1 e he)
    · exact pairwise_cons.mpr ⟨fun e he => heq ▸ hh.1 e he,hh.2⟩
    · refine pairwise_cons.mpr ⟨?_,ih hh.2⟩
      intro e he
      rcases mem_insertEntry he with rfl | he
      · exact lt_of_le_of_ne (not_lt.mp hl) (Ne.symm heq)
      · exact hh.1 e he

def insert (m : OrderedMap K V) (k : K) (v : V) : OrderedMap K V :=
  ⟨insertEntry k v m.entries, sorted_insertEntry m.sorted⟩

def erase (m : OrderedMap K V) (k : K) : OrderedMap K V :=
  ⟨m.entries.filter (·.1 ≠ k), m.sorted.filter _⟩

lemma find_eq_none_iff : find k l = none ↔ ∀ e ∈ l, k ≠ e.1 := by
  induction l with
  | nil => simp [find]
  | cons e rest ih =>
    rw [find]
    split_ifs with hk
    · simp [hk]
    · simp [hk,ih]

lemma find_append (k : K) (l l' : List (K × V)) :
    find k (l ++ l') = (find k l).or (find k l') := by
  induction l with
  | nil => rfl
  | cons e rest ih =>
    rw [cons_append,find,find]
    split_ifs
    · rfl
    · exact ih

lemma find_eq_some_iff (h : l.Pairwise fun a b => a.1 < b.1) : find k l = some v ↔ (k,v) ∈ l := by
  induction l with
  | nil => simp [find]
  | cons hd rest ih =>
    obtain ⟨hh,hr⟩ := pairwise_cons.mp h
    rw [find,mem_cons]
    split_ifs with hk
    · have ha : (k,v) ∉ rest := fun hm => absurd (hh _ hm) (by simp [hk])
      simp [Prod.ext_iff,hk,hk ▸ ha,eq_comm]
    · simp [Prod.ext_iff,hk,ih hr]

lemma get_eq_some_iff : m.get k = some v ↔ (k,v) ∈ m.entries := find_eq_some_iff m.sorted

lemma get_eq_none_iff : m.get k = none ↔ ∀ e ∈ m.entries, k ≠ e.1 := find_eq_none_iff

lemma ext_get {m' : OrderedMap K V} (h : ∀ k, m.get k = m'.get k) : m = m' := by
  apply OrderedMap.ext
  have hm : ∀ e, e ∈ m.entries ↔ e ∈ m'.entries := by
    intro e
    rw [← get_eq_some_iff,← get_eq_some_iff,h]
  have : Std.Antisymm fun a b : K × V => a.1 < b.1 := ⟨fun _ _ ha hb => absurd ha hb.asymm⟩
  have : Std.Irrefl fun a b : K × V => a.1 < b.1 := ⟨fun a => lt_irrefl a.1⟩
  exact m.sorted.eq_of_mem_iff m'.sorted hm

@[simp] lemma get_empty (k : K) : (empty : OrderedMap K V).get k = none := rfl

lemma find_insertEntry (k : K) (v : V) (l : List (K × V)) (q : K) :
    find q (insertEntry k v l) = if q = k then some v else find q l := by
  induction l with
  | nil => rfl
  | cons hd rest ih =>
    rw [insertEntry]
    by_cases hl : k < hd.1
    · rw [if_pos hl,find]
    by_cases heq : k = hd.1
    · rw [if_neg hl,if_pos heq,find,find,heq]
      split_ifs <;> rfl
    · rw [if_neg hl,if_neg heq,find,find,ih]
      by_cases hq : q = k
      · rw [if_pos hq,if_neg (hq ▸ heq),if_pos hq]
      · rw [if_neg hq,if_neg hq]

lemma get_insert (m : OrderedMap K V) (k : K) (v : V) (q : K) :
    (m.insert k v).get q = if q = k then some v else m.get q := find_insertEntry k v m.entries q

lemma get_erase (m : OrderedMap K V) (k q : K) :
    (m.erase k).get q = if q = k then none else m.get q := by
  split_ifs with hq
  · subst hq
    refine get_eq_none_iff.mpr fun e he => ?_
    have hn : e.1 ≠ q := by simpa using (mem_filter.mp he).2
    exact hn.symm
  · refine ext fun v => ?_
    simp [get_eq_some_iff,erase,hq]

def retain (keep : V → Bool) (m : OrderedMap K V) : OrderedMap K V :=
  ⟨m.entries.filter (keep ·.2), m.sorted.filter _⟩

lemma get_retain (keep : V → Bool) (m : OrderedMap K V) (k : K) :
    (m.retain keep).get k = (m.get k).filter keep := by
  refine ext fun v => ?_
  rw [get_eq_some_iff,filter_eq_some_iff,get_eq_some_iff]
  exact mem_filter

def total (weight : K → V → Nat) (m : OrderedMap K V) : Nat :=
  (m.entries.map fun e => weight e.1 e.2).sum

lemma total_one (m : OrderedMap K V) : m.total (fun _ _ => 1) = m.entries.length := by
  simp [total]

lemma find_eq_none_of_lt {e : K × V} (hl : k < e.1) (h : (e :: l).Pairwise fun a b => a.1 < b.1) :
    find k (e :: l) = none := by
  rw [find_eq_none_iff]
  intro f hf
  rcases mem_cons.mp hf with rfl | hf
  · exact hl.ne
  · exact (hl.trans ((pairwise_cons.mp h).1 f hf)).ne

lemma sum_insertEntry (wt : K → V → Nat) (k : K) (v : V) (h : l.Pairwise fun a b => a.1 < b.1) :
    (l.map fun e => wt e.1 e.2).sum + wt k v =
      ((insertEntry k v l).map fun e => wt e.1 e.2).sum + (find k l).elim 0 (wt k) := by
  induction l with
  | nil => simp [insertEntry,find]
  | cons hd rest ih =>
    have ih := ih (pairwise_cons.mp h).2
    rw [insertEntry]
    by_cases hl : k < hd.1
    · rw [if_pos hl,find_eq_none_of_lt hl h]
      simp only [map_cons,sum_cons,elim_none]
      omega
    by_cases heq : k = hd.1
    · rw [if_neg hl,if_pos heq,find,if_pos heq]
      simp only [map_cons,sum_cons,elim_some,heq]
      omega
    · rw [if_neg hl,if_neg heq,find,if_neg heq]
      simp only [map_cons,sum_cons]
      omega

lemma total_insert (wt : K → V → Nat) (m : OrderedMap K V) (k : K) (v : V) :
    m.total wt + wt k v = (m.insert k v).total wt + (m.get k).elim 0 (wt k) :=
  sum_insertEntry wt k v m.sorted

lemma sum_filter_ne (wt : K → V → Nat) (k : K) (h : l.Pairwise fun a b => a.1 < b.1) :
    (l.map fun e => wt e.1 e.2).sum =
      ((l.filter (·.1 ≠ k)).map fun e => wt e.1 e.2).sum + (find k l).elim 0 (wt k) := by
  induction l with
  | nil => simp [find]
  | cons hd rest ih =>
    obtain ⟨hh,hr⟩ := pairwise_cons.mp h
    have ih := ih hr
    by_cases heq : k = hd.1
    · have hk : rest.filter (·.1 ≠ k) = rest :=
        filter_eq_self.mpr fun e he => by simpa using (heq ▸ hh e he).ne'
      rw [filter_cons_of_neg (by simp [heq]),hk,find,if_pos heq]
      simp only [map_cons,sum_cons,elim_some,heq]
      omega
    · rw [filter_cons_of_pos (by simpa using Ne.symm heq),find,if_neg heq]
      simp only [map_cons,sum_cons]
      omega

lemma total_erase (wt : K → V → Nat) (m : OrderedMap K V) (k : K) :
    m.total wt = (m.erase k).total wt + (m.get k).elim 0 (wt k) :=
  sum_filter_ne wt k m.sorted

def mapValues (f : K → V → V) (m : OrderedMap K V) : OrderedMap K V :=
  ⟨m.entries.map fun e => (e.1, f e.1 e.2), pairwise_map.mpr m.sorted⟩

lemma get_mapValues (f : K → V → V) (m : OrderedMap K V) (k : K) :
    (m.mapValues f).get k = (m.get k).map (f k) := by
  change find k (m.entries.map fun e => (e.1,f e.1 e.2)) = (find k m.entries).map (f k)
  induction m.entries with
  | nil => rfl
  | cons e rest ih =>
    simp only [map_cons,find,ih]
    by_cases hk : k = e.1
    · simp [hk]
    · simp [hk]

lemma insertEntry_append (h : ∀ e ∈ l, e.1 < k) : insertEntry k v l = l ++ [(k,v)] := by
  induction l with
  | nil => rfl
  | cons e rest ih =>
    have hl := h e mem_cons_self
    rw [insertEntry,if_neg hl.asymm,if_neg hl.ne',cons_append,
      ih fun f hf => h f (mem_cons_of_mem e hf)]

lemma foldl_insert (h : (m.entries ++ l).Pairwise fun a b => a.1 < b.1) :
    (l.foldl (fun m e => m.insert e.1 e.2) m).entries = m.entries ++ l := by
  induction l generalizing m with
  | nil => simp
  | cons e rest ih =>
    have he : (m.insert e.1 e.2).entries = m.entries ++ [e] :=
      insertEntry_append fun f hf => (pairwise_append.mp h).2.2 f hf e mem_cons_self
    rw [foldl_cons,ih (by rw [he]; simpa using h),he]
    simp

lemma get_foldl_update {f : K → Option V → V} (hi : ∀ k o, f k (some (f k o)) = f k o)
    (keys : List K) (m : OrderedMap K V) (q : K) :
    (keys.foldl (fun m k => m.insert k (f k (m.get k))) m).get q =
      if q ∈ keys then some (f q (m.get q)) else m.get q := by
  induction keys generalizing m with
  | nil => simp
  | cons k rest ih =>
    rw [foldl_cons,ih,get_insert]
    by_cases hk : q = k
    · subst hk
      simp only [if_true,hi,mem_cons_self,ite_self]
    · simp only [hk,if_false,mem_cons,false_or]

lemma collect_entries (m : OrderedMap K V) :
    m.entries.foldl (fun m e => m.insert e.1 e.2) empty = m :=
  OrderedMap.ext (foldl_insert m.sorted)

end OrderedMap
end Astrolune.Lib
