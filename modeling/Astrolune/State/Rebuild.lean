import Astrolune.State.Prove

namespace Astrolune.State
open Lib Codec List Option

section Plan

variable {data ws : StateMap} {bs : Nat} {key : StateKey} {original : Bytes}

lemma stageChange_put_planned (value : Bytes)
    (hby : bs = encodedSize (overlay data ws)) (h : data.get key = some original) :
    stageChange (overlay data ws,bs) (.put key value) = do
      ensure .limitExceeded (key.length ≤ maxStateKeyBytes)
      ensure .limitExceeded (value.length ≤ maxStateValueBytes)
      let size := bs - ((ws.get key).getD original).length + value.length
      ensure .limitExceeded (size ≤ maxSnapshotBytes)
      return (overlay data (ws.insert key value),size) := by
  have hg : (overlay data ws).get key = some ((ws.get key).getD original) := by
    rw [get_overlay,h,map_some]
  have hb := (overlay data ws).total_erase entrySize key
  rw [hg,elim_some] at hb
  have ho : entrySize key ((ws.get key).getD original) =
    16 + key.length + ((ws.get key).getD original).length := rfl
  have hp : entrySize key value = 16 + key.length + value.length := rfl
  have hs : bs - entrySize key ((ws.get key).getD original) + entrySize key value =
      bs - ((ws.get key).getD original).length + value.length := by
    unfold encodedSize at hby
    omega
  simp only [stageChange,hg,elim_some,hs,reduceCtorEq,false_and,or_false,not_lt, overlay_insert h]

lemma stageChange_delete_planned (h : data.get key = none) :
    stageChange (overlay data ws,bs) (.delete key) = do
      ensure .limitExceeded (key.length ≤ maxStateKeyBytes)
      return (overlay data ws,bs) := by
  have hg : (overlay data ws).get key = none := by rw [get_overlay,h,map_none]
  have hs : (overlay data ws).erase key = overlay data ws := by
    refine OrderedMap.ext_get fun q => ?_
    rw [OrderedMap.get_erase]
    split_ifs with hq
    · rw [hq,hg]
    · rfl
  simp only [stageChange,hg,elim_none,Nat.sub_zero,hs]

lemma planWrites_stage (cs : List StateChange) (hb : Bounded (overlay data ws))
    (hby : bs = encodedSize (overlay data ws)) :
    match (Tree.fromMap data).planWrites cs bs ws with
    | .error e => cs.foldlM stageChange (overlay data ws,bs) = .error e
    | .ok none => True
    | .ok (some planned) =>
      ∃ size, cs.foldlM stageChange (overlay data ws,bs) = .ok (overlay data planned,size) := by
  induction cs generalizing bs ws with
  | nil => exact ⟨bs,rfl⟩
  | cons change rest ih =>
    cases change with
    | put key value =>
      by_cases hk : key.length ≤ maxStateKeyBytes
      swap
      · simp [Tree.planWrites,stageChange,ensure,hk]
      by_cases hv : value.length ≤ maxStateValueBytes
      swap
      · simp [Tree.planWrites,stageChange,ensure,hk,hv]
      simp only [Tree.planWrites,ensure_of hk,ensure_of hv,ok_bind,Tree.get_fromMap]
      cases ho : data.get key with
      | none => trivial
      | some original =>
        have hst := stageChange_put_planned value hby ho
        simp only [ensure_of hk,ensure_of hv,ok_bind] at hst
        rw [foldlM_cons,hst]
        by_cases hs : bs - ((ws.get key).getD original).length + value.length ≤ maxSnapshotBytes
        · simp only [ensure_of hs,ok_bind,pure_eq_ok] at hst ⊢
          obtain ⟨hb',hby',-⟩ := stageChange_ok hb hby hst
          exact ih hb' hby'
        · simp [ensure,hs]
    | delete key =>
      by_cases hk : key.length ≤ maxStateKeyBytes
      swap
      · simp [Tree.planWrites,stageChange,ensure,hk]
      simp only [Tree.planWrites,ensure_of hk,ok_bind,Tree.get_fromMap]
      cases ho : data.get key with
      | some original => trivial
      | none =>
        rw [foldlM_cons,stageChange_delete_planned ho,ensure_of hk]
        exact ih hb hby

end Plan

lemma stage_eq (data : StateMap) (diffs : List StateDiff) : stage data diffs =
    ((diffs.flatMap StateDiff.changes).foldlM stageChange (data,encodedSize data)).map Prod.fst := by
  rw [stage]
  cases (diffs.flatMap StateDiff.changes).foldlM stageChange (data,encodedSize data) <;> rfl

lemma Tree.transition_eq_stage {data : StateMap} (hb : Bounded data) (diffs : List StateDiff) :
    (fromMap data).transition diffs = (stage data diffs).map fromMap := by
  have hst : headerBytes + (fromMap data).root.elim 0 Node.bytes = encodedSize data := by
    rw [bytes_fromMap,encodedSize]
  have he : Bounded (overlay data .empty) := by rwa [overlay_empty]
  have hp := planWrites_stage (diffs.flatMap StateDiff.changes) he rfl
  rw [overlay_empty] at hp
  rw [stage_eq]
  cases hw : (fromMap data).planWrites (diffs.flatMap StateDiff.changes) (encodedSize data)
    .empty with
  | error e =>
    rw [hw] at hp
    rw [transition,prepare,hst,hw,hp]
    rfl
  | ok planned =>
    have hpr : (fromMap data).prepare diffs = .ok (planned.map fun ws =>
        ⟨(fromMap data).root.map (·.replace ws.entries)⟩) := by
      rw [prepare,hst,hw]
      rfl
    cases planned with
    | none =>
      rw [transition,hpr,← stage_eq,toMap_fromMap]
      cases stage data diffs <;> rfl
    | some ws =>
      rw [hw] at hp
      obtain ⟨size,hf⟩ := hp
      obtain ⟨ht,-⟩ := prepare_ok hb hpr
      obtain ⟨-,hs⟩ := foldlM_stageChange hb rfl hf
      rw [transition,hpr,hf]
      change Except.ok _ = Except.ok (fromMap (overlay data ws,size).1)
      rw [hs,← ht]

namespace InMemoryState

lemma bounded_stage {s : InMemoryState} {diffs : List StateDiff} {m : StateMap}
    (h : stage s.map diffs = .ok m) : Bounded m := by
  rw [stage_eq] at h
  cases hf : (diffs.flatMap StateDiff.changes).foldlM stageChange (s.map,encodedSize s.map) with
  | error e =>
    rw [hf] at h
    cases h
  | ok next =>
    rw [hf] at h
    cases h
    exact (foldlM_stageChange s.bounded rfl hf).1

/-- The reference transition: the diffs are staged on the map, and its tree is built anew. -/
def rebuild (H : Hasher) (s : InMemoryState) (parent : Hash256)
    (diffs : List StateDiff) : Except StateError InMemoryState :=
  if parent = s.root H then
    match h : stage s.map diffs with
    | .error e => .error e
    | .ok m => .ok (ofMap m (bounded_stage h))
  else .error .staleSnapshot

lemma prepare_eq_rebuild (H : Hasher) (s : InMemoryState) (par : Hash256)
    (diffs : List StateDiff) : s.prepare H par diffs = s.rebuild H par diffs := by
  have ht := Tree.transition_eq_stage s.bounded diffs
  rw [← s.data_eq] at ht
  unfold prepare rebuild
  split
  · split
    · next e he =>
      rw [he] at ht
      split
      · next e' he' =>
        rw [he'] at ht
        cases ht
        rfl
      · next m hm =>
        rw [hm] at ht
        cases ht
    · next data hd =>
      rw [hd] at ht
      split
      · next e' he' =>
        rw [he'] at ht
        cases ht
      · next m hm =>
        rw [hm] at ht
        cases ht
        rfl
  · rfl

/-- Preparing a transition in place shows nothing that a full rebuild would not show. -/
theorem prepare_refines_rebuild (H : Hasher) (s : InMemoryState) (parent : Hash256)
    (diffs : List StateDiff) :
    match s.prepare H parent diffs, s.rebuild H parent diffs with
    | .error e, .error e' => e = e'
    | .ok next, .ok rebuilt =>
      next.map = rebuilt.map ∧ next.root H = rebuilt.root H ∧
      next.exportSnapshot H = rebuilt.exportSnapshot H ∧
      ∀ key, next.data.prove H key = rebuilt.data.prove H key ∧
        next.data.proveAbsence H key = rebuilt.data.proveAbsence H key
    | _, _ => False := by
  rw [prepare_eq_rebuild]
  cases s.rebuild H parent diffs with
  | error e => rfl
  | ok rebuilt => exact ⟨rfl,rfl,rfl,fun _ => ⟨rfl,rfl⟩⟩

end InMemoryState

end Astrolune.State
