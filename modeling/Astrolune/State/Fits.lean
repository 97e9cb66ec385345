import Astrolune.State.Rebuild

namespace Astrolune.State
open Lib List

structure Fits (changes : List StateChange) (m : StateMap) : Prop where
  keys : ∀ change ∈ changes, change.key.length ≤ maxStateKeyBytes
  bounded : ∀ taken, taken <+: changes → Bounded (applyTo taken m)

lemma Fits.start {cs : List StateChange} {m : StateMap} (h : Fits cs m) : Bounded m :=
  h.bounded [] nil_prefix

lemma fits_nil {m : StateMap} : Fits [] m ↔ Bounded m := by
  refine ⟨Fits.start,fun h => ⟨fun _ hc => absurd hc not_mem_nil,?_⟩⟩
  intro taken ht
  rw [prefix_nil.mp ht]
  exact h

lemma fits_cons {change : StateChange} {rest : List StateChange} {m : StateMap} :
    Fits (change :: rest) m ↔
      change.key.length ≤ maxStateKeyBytes ∧ Bounded m ∧ Fits rest (applyChange m change) := by
  constructor
  · intro h
    refine ⟨h.keys change mem_cons_self,h.start,
      fun c hc => h.keys c (mem_cons_of_mem change hc),fun taken ht => ?_⟩
    exact h.bounded (change :: taken) (cons_prefix_cons.mpr ⟨rfl,ht⟩)
  · rintro ⟨hk,hm,hr⟩
    refine ⟨forall_mem_cons.mpr ⟨hk,hr.keys⟩,fun taken ht => ?_⟩
    cases taken with
    | nil => exact hm
    | cons c taken =>
      obtain ⟨rfl,hrestTaken⟩ := cons_prefix_cons.mp ht
      exact hr.bounded taken hrestTaken

lemma fits_append {fr back : List StateChange} {m : StateMap} :
    Fits (fr ++ back) m ↔ Fits fr m ∧ Fits back (applyTo fr m) := by
  induction fr generalizing m with
  | nil => exact ⟨fun h => ⟨fits_nil.mpr h.start,h⟩,fun h => h.2⟩
  | cons change rest ih =>
    rw [cons_append,fits_cons,fits_cons,ih]
    constructor
    · intro ⟨hk,hm,hr,hb⟩
      exact ⟨⟨hk,hm,hr⟩,hb⟩
    · intro ⟨⟨hk,hm,hr⟩,hb⟩
      exact ⟨hk,hm,hr,hb⟩

lemma fits_deletes {keys : List StateKey} {m : StateMap} (hm : Bounded m)
    (hke : ∀ key ∈ keys, key.length ≤ maxStateKeyBytes) : Fits (keys.map .delete) m := by
  induction keys generalizing m with
  | nil => exact fits_nil.mpr hm
  | cons key rest ih =>
    obtain ⟨hk,hr⟩ := forall_mem_cons.mp hke
    exact fits_cons.mpr ⟨hk,hm,ih (hm.erase key) hr⟩

lemma Bounded.without {m : StateMap} (h : Bounded m) (keys : List StateKey) :
    Bounded (keys.foldl OrderedMap.erase m) ∧
      ∀ k, (keys.foldl OrderedMap.erase m).get k = if k ∈ keys then none else m.get k := by
  induction keys generalizing m with
  | nil => exact ⟨h,fun k => by simp⟩
  | cons key rest ih =>
    obtain ⟨hb,hg⟩ := ih (h.erase key)
    refine ⟨hb,fun k => ?_⟩
    rw [foldl_cons,hg,OrderedMap.get_erase]
    by_cases hk : k = key <;> simp [hk]

lemma Bounded.part {m whole : StateMap} (h : Bounded whole)
    (hm : ∀ k v, m.get k = some v → whole.get k = some v) : Bounded m := by
  obtain ⟨hb,hg⟩ := h.without ((whole.entries.map (·.1)).filter fun k => (m.get k).isNone)
  convert hb using 1
  refine OrderedMap.ext_get fun k => ?_
  rw [hg]
  cases hk : m.get k with
  | some v => simp [hk,hm k v hk]
  | none =>
    split
    · rfl
    · next hn =>
      cases hw : whole.get k with
      | none => rfl
      | some v =>
        refine absurd ?_ hn
        have hme := OrderedMap.get_eq_some_iff.mp hw
        exact mem_filter.mpr ⟨mem_map.mpr ⟨_,hme,rfl⟩,by simp [hk]⟩

lemma fits_puts {cs : List StateChange} {m whole : StateMap} (h : Bounded whole)
    (hm : ∀ k v, m.get k = some v → whole.get k = some v)
    (hc : ∀ c ∈ cs, ∃ key value, c = .put key value ∧ whole.get key = some value) :
    Fits cs m := by
  induction cs generalizing m with
  | nil => exact fits_nil.mpr (h.part hm)
  | cons c rest ih =>
    obtain ⟨⟨key,value,rfl,hv⟩,hr⟩ := forall_mem_cons.mp hc
    refine fits_cons.mpr ⟨h.keys _ (OrderedMap.get_eq_some_iff.mp hv),h.part hm,ih ?_ hr⟩
    intro k v hk
    rw [applyChange,OrderedMap.get_insert] at hk
    split at hk
    · next heq =>
      cases hk
      exact heq ▸ hv
    · exact hm k v hk

section Stage

variable {m : StateMap} {change : StateChange} {cs : List StateChange}

lemma stageChange_of_bounded (hk : change.key.length ≤ maxStateKeyBytes)
    (hn : Bounded (applyChange m change)) :
    stageChange (m,encodedSize m) change =
      .ok (applyChange m change,encodedSize (applyChange m change)) := by
  cases change with
  | put key value =>
    change key.length ≤ _ at hk
    have hv : value.length ≤ maxStateValueBytes :=
      hn.values (key,value) (OrderedMap.get_eq_some_iff.mp (by
        change (m.insert key value).get key = _
        rw [OrderedMap.get_insert,if_pos rfl]))
    have hb := m.total_erase entrySize key
    have ha := m.total_insert entrySize key value
    have hc := m.total_insert (fun _ _ => 1) key value
    rw [OrderedMap.total_one,OrderedMap.total_one] at hc
    have hs : encodedSize m - (m.get key).elim 0 (entrySize key) + entrySize key value =
        encodedSize (m.insert key value) := by
      unfold encodedSize
      omega
    have hr : ¬(maxSnapshotBytes < encodedSize (m.insert key value) ∨
        m.get key = none ∧ m.entries.length = maxStateEntries) := by
      rintro (hlo | ⟨hno,hf⟩)
      · exact absurd hn.size (not_le.mpr hlo)
      · have hl := hn.count
        change (m.insert key value).entries.length ≤ _ at hl
        rw [hno,Option.elim_none] at hc
        omega
    simp only [stageChange]
    rw [ensure_of hk,ok_bind,ensure_of hv,ok_bind,hs,ensure_of hr]
    rfl
  | delete key =>
    change key.length ≤ _ at hk
    have hb := m.total_erase entrySize key
    have hs : encodedSize m - (m.get key).elim 0 (entrySize key) = encodedSize (m.erase key) := by
      unfold encodedSize
      omega
    simp only [stageChange]
    rw [ensure_of hk,ok_bind,hs]
    rfl

lemma key_of_stageChange {acc next : StateMap × Nat} (h : stageChange acc change = .ok next) :
    change.key.length ≤ maxStateKeyBytes := by
  cases change with
  | put key value =>
    simp only [stageChange,bind_eq_ok,ensure_eq_ok] at h
    exact h.choose_spec.1
  | delete key =>
    simp only [stageChange,bind_eq_ok,ensure_eq_ok] at h
    exact h.choose_spec.1

lemma staged_iff_fits (hb : Bounded m) :
    (∃ next, cs.foldlM stageChange (m,encodedSize m) = .ok next) ↔ Fits cs m := by
  induction cs generalizing m with
  | nil => exact ⟨fun _ => fits_nil.mpr hb,fun _ => ⟨_,rfl⟩⟩
  | cons change rest ih =>
    rw [foldlM_cons,fits_cons]
    constructor
    · rintro ⟨next,h⟩
      obtain ⟨⟨middle,size⟩,hst,hr⟩ := bind_eq_ok.mp h
      obtain ⟨hm,hs,ha⟩ := stageChange_ok hb rfl hst
      dsimp only at hm hs ha
      subst ha hs
      exact ⟨key_of_stageChange hst,hb,(ih hm).mp ⟨next,hr⟩⟩
    · rintro ⟨hk,-,hr⟩
      obtain ⟨next,hn⟩ := (ih hr.start).mpr hr
      exact ⟨next,by rw [stageChange_of_bounded hk hr.start,ok_bind,hn]⟩

end Stage

namespace InMemoryState

variable {H : Hasher} {s : InMemoryState} {diffs : List StateDiff}

lemma prepare_iff_fits : (∃ next, s.prepare H (s.root H) diffs = .ok next) ↔
    Fits (diffs.flatMap StateDiff.changes) s.map := by
  rw [prepare_eq_rebuild,← staged_iff_fits s.bounded]
  unfold rebuild
  rw [if_pos rfl]
  split
  · next e he =>
    rw [stage_eq] at he
    constructor
    · rintro ⟨next,h⟩
      cases h
    · rintro ⟨next,h⟩
      rw [h] at he
      cases he
  · next m hm =>
    rw [stage_eq] at hm
    refine ⟨fun _ => ?_,fun _ => ⟨_,rfl⟩⟩
    cases hf : (diffs.flatMap StateDiff.changes).foldlM stageChange (s.map,encodedSize s.map) with
    | error e =>
      rw [hf] at hm
      cases hm
    | ok next => exact ⟨next,rfl⟩

end InMemoryState
end Astrolune.State
