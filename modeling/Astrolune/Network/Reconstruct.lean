import Astrolune.Codec.Exact
import Astrolune.Types.Hash

namespace Astrolune.Network
open Lib Codec List Function

/-- A compact block over the transactions `τ`, which reconstruction only copies. -/
structure CompactBlock (τ : Type) where
  shortIds : List UInt64
  prefilled : List (Nat × τ)

inductive Reconstruction (τ : Type) where
  | complete (transactions : List τ)
  | missing (hashes : List Hash256)

def shortHash (id : UInt64) : Hash256 :=
  ⟨u64Bytes id ++ replicate 24 0, by rw [length_append, length_replicate, u64Bytes, leBytes_length]⟩

variable {τ : Type}

/-- Puts a prefilled transaction at its index, over what is there. -/
def place (total : Nat) (slots : List (Option τ)) (p : Nat × τ) : List (Option τ) :=
  if p.1 < total then slots.set p.1 (some p.2) else slots

/-- The pass over the slots: the slots after it, and the identifiers that are not known. -/
def fill (known : UInt64 → Option τ) : List (Option τ) → List UInt64 → List (Option τ) × List Hash256
  | [], _ => ([], [])
  | some tx :: slots, ids =>
    let (slots, missing) := fill known slots ids
    (some tx :: slots, missing)
  | none :: slots, [] => (none :: slots, [])
  | none :: slots, id :: ids =>
    let (slots, missing) := fill known slots ids
    match known id with
    | some tx => (some tx :: slots, missing)
    | none => (none :: slots, shortHash id :: missing)

namespace CompactBlock

def total (b : CompactBlock τ) : Nat := b.shortIds.length + b.prefilled.length

def placed (b : CompactBlock τ) : List (Option τ) :=
  b.prefilled.foldl (place b.total) (replicate b.total none)

/-- `none` stands for the panic of `expect("all slots filled")`. -/
def reconstruct (b : CompactBlock τ) (known : UInt64 → Option τ) : Option (Reconstruction τ) :=
  let (slots, missing) := fill known b.placed b.shortIds
  if missing = [] then (slots.mapM id).map .complete else some (.missing missing)

def indexes (b : CompactBlock τ) : List Nat := b.prefilled.map Prod.fst

def WellPlaced (b : CompactBlock τ) : Prop := b.indexes.Nodup ∧ ∀ i ∈ b.indexes, i < b.total

structure Arranged (b : CompactBlock τ) (known : UInt64 → Option τ) (txs : List τ) : Prop where
  length : txs.length = b.total
  prefilled : ∀ p ∈ b.prefilled, txs[p.1]? = some p.2
  rest : ((range b.total).filter (· ∉ b.indexes)).map (txs[·]?) = b.shortIds.map known

end CompactBlock

variable {slots : List (Option τ)} {l : List (Nat × τ)} {known : UInt64 → Option τ} {ids : List UInt64}

def empties (slots : List (Option τ)) : Nat := slots.countP Option.isNone

def setAll (slots : List (Option τ)) (l : List (Nat × τ)) : List (Option τ) :=
  l.foldl (fun slots p => slots.set p.1 (some p.2)) slots

lemma foldl_place {tot : Nat} (hl : slots.length = tot) :
    l.foldl (place tot) slots = setAll slots l := by
  induction l generalizing slots with
  | nil => rfl
  | cons p l ih =>
    have hs : place tot slots p = slots.set p.1 (some p.2) := by
      rw [place]
      split
      · rfl
      · rw [set_eq_of_length_le (by omega)]
    rw [setAll,foldl_cons,foldl_cons,hs,ih (by rw [length_set,hl]),setAll]

lemma set_none_iff {i q : Nat} {tx : τ} :
    (slots.set i (some tx))[q]? = some none ↔ slots[q]? = some none ∧ q ≠ i := by
  rw [getElem?_set]
  split
  · next h =>
    subst h
    split <;> simp
  · next h => simp [Ne.symm h]

lemma empties_set {i : Nat} {tx : τ} : empties (slots.set i (some tx)) ≤ empties slots ∧
    empties slots ≤ empties (slots.set i (some tx)) + 1 ∧
    (empties slots = empties (slots.set i (some tx)) + 1 ↔ slots[i]? = some none) := by
  by_cases hi : i < slots.length
  · rw [empties,empties,countP_set hi,getElem?_eq_getElem hi]
    have hp : slots[i].isNone → 0 < slots.countP Option.isNone :=
      fun h => countP_pos_iff.mpr ⟨_,getElem_mem hi,h⟩
    cases hs : slots[i] with
    | none =>
      have := hp (by rw [hs]; rfl)
      simp
      omega
    | some tx => simp
  · rw [set_eq_of_length_le (by omega),getElem?_eq_none (by omega)]
    simp

lemma setAll_none_iff {q : Nat} : (setAll slots l)[q]? = some none ↔
    slots[q]? = some none ∧ q ∉ l.map Prod.fst := by
  induction l generalizing slots with
  | nil => simp [setAll]
  | cons p l ih =>
    rw [setAll,foldl_cons,← setAll,ih,set_none_iff,map_cons,mem_cons,not_or,and_assoc]

lemma setAll_of_notMem {q : Nat} (hq : q ∉ l.map Prod.fst) : (setAll slots l)[q]? = slots[q]? := by
  induction l generalizing slots with
  | nil => rfl
  | cons p l ih =>
    rw [map_cons,mem_cons,not_or] at hq
    rw [setAll,foldl_cons,← setAll,ih hq.2,getElem?_set_ne (Ne.symm hq.1)]

@[simp] lemma length_setAll : (setAll slots l).length = slots.length := by
  induction l generalizing slots with
  | nil => rfl
  | cons p l ih => rw [setAll,foldl_cons,← setAll,ih,length_set]

lemma setAll_of_mem (hn : (l.map Prod.fst).Nodup) {p : Nat × τ} (hp : p ∈ l) (hl : p.1 < slots.length) :
    (setAll slots l)[p.1]? = some (some p.2) := by
  induction l generalizing slots with
  | nil => cases hp
  | cons q l ih =>
    rw [map_cons,nodup_cons] at hn
    rw [setAll,foldl_cons,← setAll]
    rcases mem_cons.mp hp with rfl | hp
    · rw [setAll_of_notMem hn.1,getElem?_set_self hl]
    · exact ih hn.2 hp (by rwa [length_set])

/-- Each index leaves one empty slot less exactly when they are distinct and meet empty slots. -/
lemma empties_setAll : empties slots ≤ empties (setAll slots l) + l.length ∧
    (empties slots = empties (setAll slots l) + l.length ↔
      (l.map Prod.fst).Nodup ∧ ∀ i ∈ l.map Prod.fst, slots[i]? = some none) := by
  induction l generalizing slots with
  | nil => simp [setAll]
  | cons p l ih =>
    obtain ⟨hle,heq⟩ := @ih (slots.set p.1 (some p.2))
    obtain ⟨hmo,hles,ho⟩ := @empties_set _ slots p.1 p.2
    simp only [set_none_iff] at heq
    rw [setAll,foldl_cons,← setAll,length_cons,map_cons,nodup_cons,forall_mem_cons,← ho]
    refine ⟨by omega,fun h => ?_,fun h => ?_⟩
    · obtain ⟨hn,ha⟩ := heq.mp (by omega)
      exact ⟨⟨fun hm => (ha _ hm).2 rfl,hn⟩,by omega,fun i hi => (ha i hi).1⟩
    · obtain ⟨⟨hno,hn⟩,hl,ha⟩ := h
      have := heq.mpr ⟨hn,fun i hi => ⟨ha i hi,fun h => hno (h ▸ hi)⟩⟩
      omega

lemma fill_missing (hl : ids.length ≤ empties slots) :
    (fill known slots ids).2 = (ids.filter fun id => (known id).isNone).map shortHash := by
  induction slots generalizing ids with
  | nil =>
    obtain rfl := length_eq_zero_iff.mp (Nat.le_zero.mp hl)
    rfl
  | cons slot slots ih =>
    cases slot with
    | some tx => exact ih (by simpa [empties] using hl)
    | none =>
      cases ids with
      | nil => rfl
      | cons id ids =>
        have hr := @ih ids (by simpa [empties] using hl)
        cases hk : known id <;> simp [fill,hk,hr]

lemma empties_fill (hl : ids.length ≤ empties slots) (ha : ∀ id ∈ ids, (known id).isSome) :
    empties (fill known slots ids).1 + ids.length = empties slots := by
  induction slots generalizing ids with
  | nil =>
    obtain rfl := length_eq_zero_iff.mp (Nat.le_zero.mp hl)
    rfl
  | cons slot slots ih =>
    cases slot with
    | some tx =>
      have hr := ih (by simpa [empties] using hl) ha
      simpa [fill,empties] using hr
    | none =>
      cases ids with
      | nil => rfl
      | cons id ids =>
        rw [forall_mem_cons] at ha
        have hr := @ih ids (by simpa [empties] using hl) ha.2
        obtain ⟨tx,hk⟩ := Option.isSome_iff_exists.mp ha.1
        simp only [empties] at hr
        simp [fill,hk,empties]
        omega

lemma mapM_id_eq_none : slots.mapM id = none ↔ 0 < empties slots := by
  induction slots with
  | nil => simp [empties]
  | cons slot slots ih =>
    cases slot with
    | none => simp [empties]
    | some tx =>
      rw [mapM_cons,empties,countP_cons_of_neg (by simp),← empties,← ih]
      cases slots.mapM id <;> simp

lemma fill_arranged (heq : ids.length = empties slots) (ha : ∀ id ∈ ids, (known id).isSome) :
    ∃ txs, (fill known slots ids).1.mapM id = some txs ∧ txs.length = slots.length ∧
      (∀ (i : Nat) tx, slots[i]? = some (some tx) → txs[i]? = some tx) ∧
      ((range slots.length).filter fun i => slots[i]?.join.isNone).map (txs[·]?) = ids.map known := by
  induction slots generalizing ids with
  | nil =>
    obtain rfl := length_eq_zero_iff.mp heq
    exact ⟨[],rfl,rfl,by simp,rfl⟩
  | cons slot slots ih =>
    cases slot with
    | some tx =>
      obtain ⟨txs,hru,hl,hke,hr⟩ := ih (by simpa [empties] using heq) ha
      refine ⟨tx :: txs,by simp [fill,hru],by simp [hl],fun i => ?_,?_⟩
      · cases i with
        | zero => simp
        | succ i => simpa using hke i
      · simpa [range_succ_eq_map,filter_map,comp_def] using hr
    | none =>
      cases ids with
      | nil => simp [empties] at heq
      | cons id ids =>
        rw [forall_mem_cons] at ha
        obtain ⟨tx,hk⟩ := Option.isSome_iff_exists.mp ha.1
        obtain ⟨txs,hru,hl,hke,hr⟩ := @ih ids (by simpa [empties] using heq) ha.2
        refine ⟨tx :: txs,by simp [fill,hk,hru],by simp [hl],fun i => ?_,?_⟩
        · cases i with
          | zero => simp
          | succ i => simpa using hke i
        · simpa [range_succ_eq_map,filter_map,comp_def,hk] using hr

namespace CompactBlock

variable {b : CompactBlock τ}

lemma placed_eq : b.placed = setAll (replicate b.total none) b.prefilled :=
  foldl_place length_replicate

lemma empties_placed : b.shortIds.length ≤ empties b.placed ∧
    (b.shortIds.length = empties b.placed ↔ b.WellPlaced) := by
  have hb := @empties_setAll _ (replicate b.total (none : Option τ)) b.prefilled
  have hs : empties (replicate b.total (none : Option τ)) = b.shortIds.length + b.prefilled.length := by
    simp [empties,total,countP_replicate]
  have hn : ∀ i, (replicate b.total (none : Option τ))[i]? = some none ↔ i < b.total := by
    simp [getElem?_replicate]
  rw [← placed_eq,hs] at hb
  simp only [hn] at hb
  refine ⟨by omega,?_⟩
  rw [WellPlaced,indexes,← hb.2]
  omega

lemma reconstruct_known (ha : ∀ id ∈ b.shortIds, (known id).isSome) :
    b.reconstruct known = ((fill known b.placed b.shortIds).1.mapM id).map .complete := by
  have hn : b.shortIds.filter (fun id => (known id).isNone) = [] := by
    simpa [filter_eq_nil_iff,Option.isSome_iff_ne_none] using ha
  simp only [reconstruct,fill_missing empties_placed.1,hn,map_nil,reduceIte]

lemma reconstruct_unknown (hs : ¬∀ id ∈ b.shortIds, (known id).isSome) : b.reconstruct known =
      some (.missing ((b.shortIds.filter fun id => (known id).isNone).map shortHash)) := by
  have hn : (b.shortIds.filter fun id => (known id).isNone).map shortHash ≠ [] := by
    simpa [filter_eq_nil_iff] using hs
  simp only [reconstruct,fill_missing empties_placed.1,hn,reduceIte]

lemma arranged_of_wellPlaced (hw : b.WellPlaced) (ha : ∀ id ∈ b.shortIds, (known id).isSome) :
    ∃ txs, b.reconstruct known = some (.complete txs) ∧ b.Arranged known txs := by
  obtain ⟨txs,hru,hl,hk,hr⟩ := fill_arranged (empties_placed.2.mpr hw) ha
  have ht : b.placed.length = b.total := by rw [placed_eq,length_setAll,length_replicate]
  refine ⟨txs,by rw [reconstruct_known ha,hru]; rfl,hl.trans ht,fun p hp => ?_,?_⟩
  · refine hk _ _ ?_
    rw [placed_eq]
    refine setAll_of_mem hw.1 hp ?_
    rw [length_replicate]
    exact hw.2 _ (mem_map_of_mem hp)
  · rw [← hr,ht]
    refine congrArg _ (filter_congr fun i hi => ?_)
    have hi := mem_range.mp hi
    have hn := @setAll_none_iff _ (replicate b.total (none : Option τ)) b.prefilled i
    rw [← placed_eq,getElem?_replicate,if_pos hi] at hn
    have hg := getElem?_eq_getElem (ht ▸ hi : i < b.placed.length)
    rw [hg] at hn ⊢
    simp only [true_and,Option.some.injEq] at hn
    rw [Bool.eq_iff_iff,decide_eq_true_eq,indexes,← hn]
    simp

end CompactBlock

/-- Reconstruction panics when all identifiers are known and the indices do not fit; with indices that
fit it is complete or names what is missing. -/
theorem reconstruct_panics_iff (b : CompactBlock τ) (known : UInt64 → Option τ) :
    (b.reconstruct known = none ↔ (∀ id ∈ b.shortIds, (known id).isSome) ∧ ¬b.WellPlaced) ∧
    (b.WellPlaced →
      ((∀ id ∈ b.shortIds, (known id).isSome) →
        ∃ txs, b.reconstruct known = some (.complete txs) ∧ b.Arranged known txs) ∧
      ((¬∀ id ∈ b.shortIds, (known id).isSome) → b.reconstruct known =
        some (.missing ((b.shortIds.filter fun id => (known id).isNone).map shortHash)))) := by
  refine ⟨?_,fun hw => ⟨CompactBlock.arranged_of_wellPlaced hw,CompactBlock.reconstruct_unknown⟩⟩
  by_cases ha : ∀ id ∈ b.shortIds, (known id).isSome
  · obtain ⟨hl,hw⟩ := @CompactBlock.empties_placed _ b
    have hlef := empties_fill hl ha
    rw [CompactBlock.reconstruct_known ha,Option.map_eq_none_iff,mapM_id_eq_none,← hw]
    refine ⟨fun hp => ⟨ha,by omega⟩,fun h => by omega⟩
  · rw [CompactBlock.reconstruct_unknown ha]
    simp [ha]

/-- One prefilled transaction past the end and no identifiers: its slot stays empty. -/
theorem reconstruct_panics_out_of_range : CompactBlock.reconstruct ⟨[], [(1, ())]⟩ (fun _ => none) = none := rfl

end Astrolune.Network
