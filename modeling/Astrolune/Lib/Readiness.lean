import Mathlib.Data.List.Sort
import Mathlib.Data.List.Perm.Subperm
import Mathlib.Tactic.Common

/-! Running the tasks of a dependency graph as they become ready. A task that only waits for one
running task, and is all that task leads to, is fused to it. -/

namespace Astrolune.Lib
open List Function

structure Graph (dependencies successors : List (List Nat)) : Prop where
  earlier : ∀ i, ∀ j ∈ dependencies.getD i [], j < i
  once : ∀ i, (dependencies.getD i []).Nodup
  onceBack : ∀ i, (successors.getD i []).Nodup
  back : ∀ i j, j ∈ successors.getD i [] ↔ i ∈ dependencies.getD j []

structure Counters where
  remaining : Nat → Nat
  ready : List Nat
  started : Nat → Bool

namespace Counters

def start (dependencies : List (List Nat)) : Counters where
  remaining i := (dependencies.getD i []).length
  ready := (range dependencies.length).filter fun i => (dependencies.getD i []).length = 0
  started _ := false

def insertReady (next : Nat) (ready : List Nat) : List Nat :=
  if next ∈ ready then ready else ready.orderedInsert (· ≤ ·) next

/-- One task less for `next` to wait for. -/
def release (c : Counters) (next : Nat) : Counters :=
  let left := c.remaining next - 1
  { c with
    remaining := update c.remaining next left
    ready := if left = 0 ∧ c.started next = false then insertReady next c.ready else c.ready }

section Operations

variable (successors : List (List Nat))

def finish (c : Counters) (i : Nat) : Counters := (successors.getD i []).foldl release c

/-- The tasks fused after `tail`. -/
def chain (remaining : Nat → Nat) : Nat → Nat → (Nat → Bool) → List Nat
  | 0, _, _ => []
  | fuel+1, tail, started =>
    match successors.getD tail [] with
    | [next] =>
      if remaining next ≠ 1 ∨ started next = true then []
      else next :: chain remaining fuel next (update started next true)
    | _ => []

def take (c : Counters) (fuel : Nat) : Option (List Nat × Counters) :=
  match c.ready with
  | [] => none
  | index :: rest =>
    let indexes := index :: chain successors c.remaining fuel index
      (update c.started index true)
    some (indexes, { c with
      ready := rest
      started := indexes.foldl (fun started i => update started i true) c.started })

end Operations

/-- The counters after some tasks have finished, with others under way. -/
structure Tracks (dependencies : List (List Nat)) (finished busy : List Nat) (c : Counters) :
    Prop where
  nodup : (finished ++ busy).Nodup
  bound : ∀ i ∈ finished ++ busy, i < dependencies.length
  started : ∀ i, c.started i = true ↔ i ∈ finished ++ busy
  remaining : ∀ i, c.remaining i = ((dependencies.getD i []).filter (· ∉ finished)).length
  ready : ∀ i, i ∈ c.ready ↔ i < dependencies.length ∧ c.started i = false ∧ c.remaining i = 0
  once : c.ready.Nodup

variable {dependencies successors : List (List Nat)} {finished busy : List Nat} {c c' : Counters}
  {i j : Nat}

lemma tracks_start (dependencies : List (List Nat)) : Tracks dependencies [] [] (start dependencies) where
  nodup := nodup_nil
  bound := by simp
  started := by simp [start]
  remaining i := by simp [start]
  ready i := by simp [start]
  once := nodup_range.filter _

lemma Tracks.perm {busy' : List Nat} (h : Tracks dependencies finished busy c)
    (hp : busy.Perm busy') : Tracks dependencies finished busy' c where
  nodup := ((hp.append_left finished).nodup_iff).mp h.nodup
  bound i hi := h.bound i ((hp.append_left finished).mem_iff.mpr hi)
  started i := by rw [h.started,(hp.append_left finished).mem_iff]
  remaining := h.remaining
  ready := h.ready
  once := h.once

lemma mem_insertReady {ready : List Nat} : j ∈ insertReady i ready ↔ j = i ∨ j ∈ ready := by
  unfold insertReady
  split
  · next hm => exact ⟨.inr,fun h => h.elim (fun heq => heq ▸ hm) id⟩
  · exact mem_orderedInsert _

lemma nodup_insertReady {ready : List Nat} (h : ready.Nodup) : (insertReady i ready).Nodup := by
  unfold insertReady
  split
  · exact h
  · next hm => exact (perm_orderedInsert _ i ready).nodup_iff.mpr (nodup_cons.mpr ⟨hm,h⟩)

lemma started_foldl_release (l : List Nat) (c : Counters) : (l.foldl release c).started = c.started := by
  induction l generalizing c with
  | nil => rfl
  | cons next rest ih => exact ih (c.release next)

lemma remaining_foldl_release {l : List Nat} (hl : l.Nodup) (c : Counters) (j : Nat) :
    (l.foldl release c).remaining j = c.remaining j - if j ∈ l then 1 else 0 := by
  induction l generalizing c with
  | nil => simp
  | cons next rest ih =>
    obtain ⟨hn,hr⟩ := nodup_cons.mp hl
    rw [foldl_cons,ih hr]
    by_cases heq : j = next
    · subst heq
      simp [release,hn]
    · simp [release,heq,mem_cons]

lemma mem_ready_foldl_release {l : List Nat} (hl : l.Nodup) (c : Counters) (j : Nat) :
    j ∈ (l.foldl release c).ready ↔
      j ∈ c.ready ∨ (j ∈ l ∧ c.remaining j - 1 = 0 ∧ c.started j = false) := by
  induction l generalizing c with
  | nil => simp
  | cons next rest ih =>
    obtain ⟨hn,hre⟩ := nodup_cons.mp hl
    rw [foldl_cons,ih hre]
    have hr : j ∈ (c.release next).ready ↔
        j ∈ c.ready ∨ (j = next ∧ c.remaining j - 1 = 0 ∧ c.started j = false) := by
      simp only [release]
      split
      · next hnow =>
        rw [mem_insertReady]
        exact ⟨fun h => h.elim (fun heq => .inr ⟨heq,heq ▸ hnow⟩) .inl,
          fun h => h.elim .inr fun h => .inl h.1⟩
      · next hno => exact ⟨.inl,fun h => h.elim id fun ⟨heq,hnow⟩ => absurd (heq ▸ hnow) hno⟩
    rw [hr]
    by_cases heq : j = next
    · subst heq
      simp [hn]
    · simp [release,heq,mem_cons]

lemma nodup_ready_foldl_release (l : List Nat) (c : Counters) (h : c.ready.Nodup) :
    (l.foldl release c).ready.Nodup := by
  induction l generalizing c with
  | nil => exact h
  | cons next rest ih =>
    refine ih (c.release next) ?_
    simp only [release]
    split
    · exact nodup_insertReady h
    · exact h

lemma length_filter_snoc {l : List Nat} (hl : l.Nodup) (hi : i ∉ finished) :
    (l.filter (· ∉ finished ++ [i])).length =
      (l.filter (· ∉ finished)).length - if i ∈ l then 1 else 0 := by
  have hs : l.filter (· ∉ finished ++ [i]) = (l.filter (· ∉ finished)).filter (· ≠ i) := by
    rw [filter_filter]
    refine filter_congr fun j _ => ?_
    simp [not_or,and_comm]
  have hf : (l.filter (· ∉ finished)).Nodup := hl.filter _
  have hm : i ∈ l.filter (· ∉ finished) ↔ i ∈ l := by simp [hi]
  have he : (l.filter (· ∉ finished)).filter (· ≠ i) = (l.filter (· ∉ finished)).erase i := by
    rw [hf.erase_eq_filter]
    refine filter_congr fun j _ => ?_
    by_cases heq : j = i <;> simp [heq]
  rw [hs,he]
  split
  · next hin => exact length_erase_of_mem (hm.mpr hin)
  · next ho => rw [erase_of_not_mem (fun h => ho (hm.mp h)),Nat.sub_zero]

lemma bound_of_mem (h : i ∈ dependencies.getD j []) : j < dependencies.length := by
  by_contra ho
  rw [getD_eq_getElem?_getD,getElem?_eq_none (not_lt.mp ho)] at h
  cases h

lemma Tracks.finish (hg : Graph dependencies successors)
    (h : Tracks dependencies finished (i :: busy) c) :
    Tracks dependencies (finished ++ [i]) busy (c.finish successors i) where
  nodup := by simpa using h.nodup
  bound := by simpa using h.bound
  started j := by
    rw [Counters.finish,started_foldl_release,h.started]
    simp
  remaining j := by
    have hi : i ∉ finished := fun hm => (nodup_append.mp h.nodup).2.2 i hm i mem_cons_self rfl
    rw [Counters.finish,remaining_foldl_release (hg.onceBack i),h.remaining,
      length_filter_snoc (hg.once j) hi]
    simp only [hg.back]
  ready j := by
    rw [Counters.finish,mem_ready_foldl_release (hg.onceBack i),started_foldl_release,
      remaining_foldl_release (hg.onceBack i),h.ready]
    by_cases hb : j ∈ successors.getD i []
    · have hj : j < dependencies.length := bound_of_mem ((hg.back i j).mp hb)
      simp only [hb,hj,true_and,if_true]
      exact ⟨fun ho => ho.elim (fun ⟨hs,hz⟩ => ⟨hs,by omega⟩) fun ⟨hz,hs⟩ => ⟨hs,hz⟩,
        fun ⟨hs,hz⟩ => .inr ⟨hz,hs⟩⟩
    · simp only [hb,false_and,or_false,if_false,Nat.sub_zero]
  once := nodup_ready_foldl_release _ c h.once

section Take

variable (hg : Graph dependencies successors) (h : Tracks dependencies finished busy c)

include h in
lemma Tracks.not_finished (hi : c.started i = false) : i ∉ finished := fun hm => by
  rw [(h.started i).mpr (mem_append_left _ hm)] at hi
  cases hi

include h in
/-- What waits for one task only, and for `tail`, waits for nothing else that is unfinished. -/
lemma Tracks.met_of_one (ht : i ∉ finished) (he : i ∈ dependencies.getD j [])
    (ho : c.remaining j = 1) : ∀ k ∈ dependencies.getD j [], k = i ∨ k ∈ finished := by
  intro k hk
  rw [h.remaining] at ho
  obtain ⟨only,hon⟩ := length_eq_one_iff.mp ho
  have hm : ∀ k ∈ dependencies.getD j [], k ∉ finished → k = only := fun k hk hn =>
    mem_singleton.mp (hon ▸ mem_filter.mpr ⟨hk,by simpa using hn⟩)
  by_cases hf : k ∈ finished
  · exact .inr hf
  · exact .inl ((hm k hk hf).trans (hm i he ht).symm)

include hg h in
lemma Tracks.chain_spec (fuel tail : Nat) (started : Nat → Bool) (ht : tail ∉ finished)
    (hst : ∀ i, c.started i = true → started i = true) :
    (tail :: chain successors c.remaining fuel tail started).Pairwise (· < ·) ∧
    (∀ next ∈ chain successors c.remaining fuel tail started,
      c.started next = false ∧ c.remaining next = 1 ∧ next < dependencies.length) ∧
    ∀ pre i after, chain successors c.remaining fuel tail started = pre ++ i :: after →
      ∀ k ∈ dependencies.getD i [], k ∈ tail :: pre ∨ k ∈ finished := by
  induction fuel generalizing tail started with
  | zero => simp [chain]
  | succ fuel ih =>
    unfold chain
    split
    · next next hsu =>
      split
      · simp
      · next hgo =>
        obtain ⟨ho,hn⟩ := not_or.mp hgo
        have ho : c.remaining next = 1 := not_not.mp ho
        have hed : tail ∈ dependencies.getD next [] :=
          (hg.back tail next).mp (hsu ▸ mem_singleton_self next)
        have hl : tail < next := hg.earlier next tail hed
        have hfr : c.started next = false := by
          cases hs : c.started next with
          | false => rfl
          | true => exact absurd (hst next hs) hn
        obtain ⟨hso,he,hm⟩ := ih next (update started next true) (h.not_finished hfr) fun i hi => by
            by_cases heq : i = next
            · simp [heq]
            · rw [update_of_ne heq]
              exact hst i hi
        refine ⟨pairwise_cons.mpr ⟨fun i hi => ?_,hso⟩,fun i hi => ?_,?_⟩
        · rcases mem_cons.mp hi with rfl | hi
          · exact hl
          · exact hl.trans ((pairwise_cons.mp hso).1 i hi)
        · rcases mem_cons.mp hi with rfl | hi
          · exact ⟨hfr,ho,bound_of_mem hed⟩
          · exact he i hi
        · intro pre i after hsp k hk
          cases pre with
          | nil =>
            obtain ⟨rfl,-⟩ := cons.inj hsp
            rcases h.met_of_one ht hed ho k hk with rfl | hf
            · exact .inl mem_cons_self
            · exact .inr hf
          | cons first rest =>
            obtain ⟨rfl,hr⟩ := cons.inj hsp
            rcases hm rest i after hr k hk with hk | hk
            · exact .inl (mem_cons_of_mem _ hk)
            · exact .inr hk
    · simp

lemma foldl_update_started (l : List Nat) (started : Nat → Bool) :
    l.foldl (fun started i => update started i true) started i = true ↔
      i ∈ l ∨ started i = true := by
  induction l generalizing started with
  | nil => simp
  | cons first rest ih =>
    rw [foldl_cons,ih]
    by_cases heq : i = first
    · simp [heq]
    · simp [heq,mem_cons]

structure Taken (dependencies : List (List Nat)) (finished indexes : List Nat) : Prop where
  nonempty : indexes ≠ []
  met : ∀ before i after, indexes = before ++ i :: after →
    ∀ k ∈ dependencies.getD i [], k ∈ before ∨ k ∈ finished

include hg h in
lemma Tracks.take {fuel : Nat} {indexes : List Nat}
    (ht : c.take successors fuel = some (indexes,c')) :
    Taken dependencies finished indexes ∧ Tracks dependencies finished (busy ++ indexes) c' := by
  unfold Counters.take at ht
  split at ht
  · cases ht
  · next index rest hr =>
    have hin := (h.ready index).mp (hr ▸ mem_cons_self)
    obtain ⟨hbo,hidl,hno⟩ := hin
    have ho := nodup_cons.mp (hr ▸ h.once)
    obtain ⟨hso,he,hme⟩ := h.chain_spec hg fuel index
      (update c.started index true) (h.not_finished hidl) fun i hi => by
        by_cases heq : i = index
        · simp [heq]
        · rwa [update_of_ne heq]
    generalize hc : chain successors c.remaining fuel index
      (update c.started index true) = fused at *
    cases ht
    have hid : ∀ i ∈ index :: fused, c.started i = false := fun i hi => by
      rcases mem_cons.mp hi with rfl | hi
      · exact hidl
      · exact (he i hi).1
    have hm : ∀ i, i ∈ finished ++ (busy ++ index :: fused) ↔
        i ∈ index :: fused ∨ i ∈ finished ++ busy := fun i => by
      simp only [mem_append]
      tauto
    refine ⟨⟨cons_ne_nil _ _,fun pre i after hsp k hk => ?_⟩,?_,fun i hi => ?_,fun i => ?_,
      h.remaining,fun i => ?_,ho.2⟩
    · cases pre with
      | nil =>
        -- The first one was ready: nothing it waits for is unfinished.
        obtain ⟨rfl,-⟩ := cons.inj hsp
        rw [h.remaining,length_eq_zero_iff,filter_eq_nil_iff] at hno
        exact .inr (by simpa using hno k hk)
      | cons first pre =>
        obtain ⟨rfl,hfu⟩ := cons.inj hsp
        exact hme pre i after hfu k hk
    · rw [← append_assoc]
      refine nodup_append.mpr ⟨h.nodup,hso.imp fun hl => hl.ne,?_⟩
      rintro i hi j hj rfl
      have hfa := hid i hj
      rw [(h.started i).mpr hi] at hfa
      cases hfa
    · rcases (hm i).mp hi with hi | hi
      · rcases mem_cons.mp hi with rfl | hi
        · exact hbo
        · exact (he i hi).2.2
      · exact h.bound i hi
    · rw [foldl_update_started,hm,h.started]
    · have hst : (index :: fused).foldl (fun started i => update started i true)
          c.started i = false ↔ i ∉ index :: fused ∧ c.started i = false := by
        rw [← Bool.not_eq_true,foldl_update_started,not_or,Bool.not_eq_true]
      have hre : i ∈ rest ↔ i ∈ c.ready ∧ i ≠ index := by
        rw [hr,mem_cons]
        exact ⟨fun hi => ⟨.inr hi,fun heq => ho.1 (heq ▸ hi)⟩,fun hi => hi.1.resolve_left hi.2⟩
      simp only [hst,hre,h.ready,mem_cons,not_or]
      refine ⟨fun ⟨⟨hb,hs,hz⟩,hn⟩ => ⟨hb,⟨⟨hn,fun hf => ?_⟩,hs⟩,hz⟩,
        fun ⟨hb,⟨⟨hn,_⟩,hs⟩,hz⟩ => ⟨⟨hb,hs,hz⟩,hn⟩⟩
      have hon := (he i hf).2.1
      omega

end Take

/-- With nothing under way, some unfinished task is ready: the least one. -/
lemma Tracks.progress (hg : Graph dependencies successors)
    (h : Tracks dependencies finished [] c) (hlt : finished.length < dependencies.length) :
    c.ready ≠ [] := by
  have hs : ∃ i, i < dependencies.length ∧ i ∉ finished := by
    by_contra hn
    have hsu : range dependencies.length ⊆ finished := fun i hi => by
      by_contra ho
      exact hn ⟨i,mem_range.mp hi,ho⟩
    have hl := (subperm_of_subset nodup_range hsu).length_le
    rw [length_range] at hl
    omega
  classical
  obtain ⟨hb,hno⟩ := Nat.find_spec hs
  have he : ∀ j ∈ dependencies.getD (Nat.find hs) [], j ∈ finished := fun j hj => by
    have hjl := hg.earlier _ j hj
    by_contra hjn
    exact Nat.find_min hs hjl ⟨hjl.trans hb,hjn⟩
  refine ne_nil_of_mem ((h.ready (Nat.find hs)).mpr ⟨hb,?_,?_⟩)
  · rw [← Bool.not_eq_true,h.started]
    simpa using hno
  · rw [h.remaining,length_eq_zero_iff,filter_eq_nil_iff]
    intro j hj
    simpa using he j hj

lemma Tracks.complete (h : Tracks dependencies finished busy c)
    (hle : dependencies.length ≤ finished.length) :
    busy = [] ∧ finished.Perm (range dependencies.length) := by
  have hs : finished ++ busy ⊆ range dependencies.length := fun i hi =>
    mem_range.mpr (h.bound i hi)
  have hsu := subperm_of_subset h.nodup hs
  have hl := hsu.length_le
  rw [length_append,length_range] at hl
  have hb : busy = [] := length_eq_zero_iff.mp (by omega)
  subst hb
  rw [append_nil] at hsu
  exact ⟨rfl,hsu.perm_of_length_le (by rw [length_range]; exact hle)⟩

end Counters
end Astrolune.Lib
