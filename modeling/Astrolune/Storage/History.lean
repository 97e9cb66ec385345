import Astrolune.Storage.Record

namespace Astrolune.Storage
open Lib State List

def maxStateHistoryBlocks : Nat := 64
def maxStateHistoryBytes : Nat := 32 * 1024 * 1024
def maxStateHistoryChanges : Nat := 65536

structure Undo where
  before : Checkpoint
  after : Checkpoint
  diff : StateDiff
  bytes : Nat

structure StateHistory where
  entries : List Undo
  bytes : Nat
  changes : Nat

def StateHistory.default : StateHistory := ⟨[], 0, 0⟩

structure Captured where
  keys : List StateKey
  changes : List StateChange
  bytes : Nat

def previousChange (state : InMemoryState) (key : StateKey) : StateChange :=
  match state.get key with
  | some value => .put key value
  | none => .delete key

def captureChange (state : InMemoryState) (acc : Captured) (change : StateChange) :
    Option Captured :=
  let key := change.key
  if key ∈ acc.keys then some acc
  else do
    let bytes ← checkedAdd64 acc.bytes (64 + key.length + ((state.get key).map length).getD 0)
    if maxStateHistoryBytes < bytes ∨ maxStateHistoryChanges < acc.keys.length + 1 then none
    else some ⟨key :: acc.keys, acc.changes ++ [previousChange state key], bytes⟩

def capture (before after : Checkpoint) (state : InMemoryState) (diffs : List StateDiff) :
    Option Undo := do
  let captured ← (diffs.flatMap StateDiff.changes).foldlM (captureChange state) ⟨[], [], 160⟩
  return ⟨before, after, ⟨captured.changes⟩, captured.bytes⟩

namespace StateHistory

def evict : List Undo → Nat → Nat → StateHistory
  | [], bytes, changes => ⟨[], bytes, changes⟩
  | u :: rest, bytes, changes =>
    if maxStateHistoryBlocks < rest.length + 1 ∨ maxStateHistoryBytes < bytes ∨
        maxStateHistoryChanges < changes then
      evict rest (bytes - u.bytes) (changes - u.diff.changes.length)
    else ⟨u :: rest, bytes, changes⟩

def record (h : StateHistory) (before : Option Checkpoint) (after : Checkpoint)
    (state : InMemoryState) (diffs : List StateDiff) : StateHistory :=
  match before with
  | none => .default
  | some before =>
    match capture before after state diffs with
    | none => .default
    | some undo =>
      evict (h.entries ++ [undo]) (h.bytes + undo.bytes) (h.changes + undo.diff.changes.length)

def floor (h : StateHistory) (head : UInt64) : UInt64 :=
  match h.entries with
  | [] => head
  | u :: _ => u.before.height

def dropBelow (floor : UInt64) : List Undo → Nat → Nat → StateHistory
  | [], bytes, changes => ⟨[], bytes, changes⟩
  | u :: rest, bytes, changes =>
    if u.before.height < floor then
      dropBelow floor rest (bytes - u.bytes) (changes - u.diff.changes.length)
    else ⟨u :: rest, bytes, changes⟩

def truncateBelow (h : StateHistory) (floor : UInt64) : StateHistory :=
  dropBelow floor h.entries h.bytes h.changes

end StateHistory

abbrev Values := OrderedMap StateKey (Option Bytes)

def StateChange.value : StateChange → Option Bytes
  | .put _ value => some value
  | .delete _ => none

def noteChange (values : Values) (change : StateChange) : Values :=
  values.insert change.key (StateChange.value change)

/-- The checkpoint at a height, and the values that have to be restored to be back there. The
entries come newest first. -/
def readBack (height : UInt64) :
    List Undo → Checkpoint → Values → Except StorageError (Checkpoint × Values)
  | [], _, _ => .error .corrupt
  | u :: rest, checkpoint, values =>
    if checkpoint ≠ u.after then .error .corrupt
    else
      let values := u.diff.changes.foldl noteChange values
      if u.before.height = height then .ok (u.before, values)
      else readBack height rest u.before values

def restoring (values : Values) : StateDiff :=
  ⟨values.entries.map (fun e => .delete e.1) ++
    values.entries.filterMap fun e => e.2.map (StateChange.put e.1)⟩

def StateHistory.read (H : Hasher) (h : StateHistory) (height : UInt64)
    (current : Option Checkpoint) (state : InMemoryState) :
    Except StorageError (Option (Checkpoint × InMemoryState)) :=
  match current with
  | none => .ok none
  | some checkpoint =>
    if checkpoint.height < height ∨ height < h.floor checkpoint.height then .ok none
    else if height = checkpoint.height then .ok (some (checkpoint, state))
    else do
      let (before, values) ← readBack height h.entries.reverse checkpoint .empty
      let state ← failAs .corrupt
        (state.commitVerified H (state.root H) [restoring values] before.stateRoot)
      return some (before, state)

lemma get_applyChange (m : StateMap) (change : StateChange) (k : StateKey) :
    (applyChange m change).get k =
      if k = change.key then StateChange.value change else m.get k := by
  cases change with
  | put key value =>
    rw [applyChange,OrderedMap.get_insert]
    by_cases h : k = key <;> simp [h,StateChange.key,StateChange.value]
  | delete key =>
    rw [applyChange,OrderedMap.get_erase]
    by_cases h : k = key <;> simp [h,StateChange.key,StateChange.value]

lemma get_applyTo (cs : List StateChange) (vs : Values) (m base : StateMap)
    (hm : ∀ k, m.get k = (vs.get k).getD (base.get k)) (k : StateKey) :
    (applyTo cs m).get k = ((cs.foldl noteChange vs).get k).getD (base.get k) := by
  induction cs generalizing vs m with
  | nil => exact hm k
  | cons change rest ih =>
    refine ih (noteChange vs change) (applyChange m change) fun q => ?_
    rw [get_applyChange,noteChange,OrderedMap.get_insert]
    by_cases hq : q = change.key
    · simp [hq]
    · simpa [hq] using hm q

lemma get_applyTo_empty (cs : List StateChange) (m : StateMap) (k : StateKey) :
    (applyTo cs m).get k = ((cs.foldl noteChange .empty).get k).getD (m.get k) :=
  get_applyTo cs .empty m m (fun _ => rfl) k

lemma get_noteChange (vs : Values) (change : StateChange) (k : StateKey) :
    (noteChange vs change).get k =
      if k = change.key then some (StateChange.value change) else vs.get k := by
  rw [noteChange,OrderedMap.get_insert]
  by_cases h : k = change.key <;> simp [h]

variable {k : StateKey} {acc acc' : Captured}

lemma get_foldl_noteChange_of_notMem {cs : List StateChange} {vs : Values}
    (h : ∀ c ∈ cs, k ≠ c.key) : (cs.foldl noteChange vs).get k = vs.get k := by
  induction cs generalizing vs with
  | nil => rfl
  | cons change rest ih =>
    rw [foldl_cons,ih fun c hc => h c (mem_cons_of_mem change hc),get_noteChange,
      if_neg (h change mem_cons_self)]

lemma applyTo_of_notMem {cs : List StateChange} {m : StateMap}
    (h : ∀ c ∈ cs, k ≠ c.key) : (applyTo cs m).get k = m.get k := by
  rw [get_applyTo_empty,get_foldl_noteChange_of_notMem h]
  rfl

@[simp] lemma key_previousChange (st : InMemoryState) (key : StateKey) :
    (previousChange st key).key = key := by
  unfold previousChange
  split <;> rfl

@[simp] lemma value_previousChange (st : InMemoryState) (key : StateKey) :
    StateChange.value (previousChange st key) = st.get key := by
  unfold previousChange
  split
  · next h => rw [h]; rfl
  · next h => rw [h]; rfl

def Captured.Restores (acc : Captured) (state : InMemoryState) : Prop :=
  ∀ k, (acc.changes.foldl noteChange .empty).get k =
    if k ∈ acc.keys then some (state.get k) else none

lemma captureChange_eq_some {st : InMemoryState} {change : StateChange}
    (h : captureChange st acc change = some acc') :
    (change.key ∈ acc.keys ∧ acc' = acc) ∨ ∃ bs ≤ maxStateHistoryBytes,
      acc.keys.length + 1 ≤ maxStateHistoryChanges ∧ acc' =
        ⟨change.key :: acc.keys,acc.changes ++ [previousChange st change.key],bs⟩ := by
  simp only [captureChange] at h
  split at h
  · next hm =>
    cases h
    exact .inl ⟨hm,rfl⟩
  · rw [Option.bind_eq_bind,Option.bind_eq_some_iff] at h
    obtain ⟨bs,-,h⟩ := h
    split at h
    · cases h
    · next hl =>
      cases h
      exact .inr ⟨bs,by omega,by omega,rfl⟩

lemma foldlM_captureChange_preserves {st : InMemoryState} {P : Captured → Prop}
    {cs : List StateChange} (ha : P acc)
    (h : cs.foldlM (captureChange st) acc = some acc')
    (hs : ∀ acc acc', ∀ change ∈ cs, P acc → captureChange st acc change = some acc' →
      P acc') : P acc' := by
  induction cs generalizing acc with
  | nil =>
    cases h
    exact ha
  | cons change rest ih =>
    rw [foldlM_cons,Option.bind_eq_bind,Option.bind_eq_some_iff] at h
    obtain ⟨middle,hch,hr⟩ := h
    exact ih (hs _ _ change mem_cons_self ha hch) hr
      fun acc acc' c hc => hs acc acc' c (mem_cons_of_mem _ hc)

lemma captureChange_ok {st : InMemoryState} {change : StateChange}
    (hr : acc.Restores st) (h : captureChange st acc change = some acc') :
    acc'.Restores st ∧ ∀ k, k ∈ acc'.keys ↔ k ∈ acc.keys ∨ k = change.key := by
  rcases captureChange_eq_some h with ⟨hm,rfl⟩ | ⟨bs,-,-,rfl⟩
  · refine ⟨hr,fun k => ⟨.inl,?_⟩⟩
    rintro (hk | rfl)
    · exact hk
    · exact hm
  · refine ⟨fun k => ?_,fun k => by simp [or_comm]⟩
    rw [foldl_append,foldl_cons,foldl_nil,get_noteChange,key_previousChange, value_previousChange,hr k]
    by_cases hk : k = change.key
    · simp [hk]
    · simp [hk]

lemma foldlM_captureChange_ok {st : InMemoryState} {cs : List StateChange} (hr : acc.Restores st)
    (h : cs.foldlM (captureChange st) acc = some acc') :
    acc'.Restores st ∧ ∀ k, k ∈ acc'.keys ↔ k ∈ acc.keys ∨ ∃ c ∈ cs, k = c.key := by
  induction cs generalizing acc with
  | nil =>
    cases h
    exact ⟨hr,by simp⟩
  | cons change rest ih =>
    rw [foldlM_cons,Option.bind_eq_bind,Option.bind_eq_some_iff] at h
    obtain ⟨middle,hc,hre⟩ := h
    obtain ⟨hr',hk⟩ := captureChange_ok hr hc
    obtain ⟨hr'',hk'⟩ := ih hr' hre
    refine ⟨hr'',fun k => ?_⟩
    rw [hk',hk]
    simp only [mem_cons,exists_eq_or_imp]
    exact or_assoc

lemma capture_ok {pre after : Checkpoint} {st : InMemoryState} {diffs : List StateDiff}
    {undo : Undo} (h : capture pre after st diffs = some undo) :
    undo.before = pre ∧ undo.after = after ∧
      applyTo undo.diff.changes (applyTo (diffs.flatMap StateDiff.changes) st.map) = st.map := by
  rw [capture,Option.bind_eq_bind,Option.bind_eq_some_iff] at h
  obtain ⟨acc,ha,h⟩ := h
  cases h
  obtain ⟨hr,hke⟩ := foldlM_captureChange_ok (fun k => by simp) ha
  refine ⟨rfl,rfl,OrderedMap.ext_get fun k => ?_⟩
  rw [get_applyTo_empty,hr k]
  by_cases hk : k ∈ acc.keys
  · rw [if_pos hk,Option.getD_some,st.get_eq]
  · rw [if_neg hk,Option.getD_none]
    refine applyTo_of_notMem fun c hc heq => hk ((hke k).mpr (.inr ⟨c,hc,heq⟩))

lemma get_foldl_deletes (l : List (StateKey × Option Bytes)) (vs : Values) (k : StateKey) :
    ((l.map fun e => StateChange.delete e.1).foldl noteChange vs).get k =
      if (OrderedMap.find k l).isSome then some none else vs.get k := by
  induction l generalizing vs with
  | nil => rfl
  | cons e rest ih =>
    rw [map_cons,foldl_cons,ih,get_noteChange,OrderedMap.find]
    by_cases hk : k = e.1
    · simp [hk,StateChange.key,StateChange.value]
    · simp [hk,StateChange.key]

lemma get_foldl_puts {l : List (StateKey × Option Bytes)}
    (hl : l.Pairwise fun a b => a.1 < b.1) (vs : Values) (k : StateKey) :
    ((l.filterMap fun e => e.2.map (StateChange.put e.1)).foldl noteChange vs).get k =
      match OrderedMap.find k l with
      | some (some v) => some (some v)
      | _ => vs.get k := by
  induction l generalizing vs with
  | nil => rfl
  | cons e rest ih =>
    obtain ⟨hlo,hr⟩ := pairwise_cons.mp hl
    obtain ⟨key,_ | value⟩ := e
    · rw [filterMap_cons_none (by rfl),ih hr,OrderedMap.find]
      by_cases hk : k = key
      · have hn : OrderedMap.find k rest = none :=
          OrderedMap.find_eq_none_iff.mpr fun e he heq => absurd (hlo e he) (by simp [← heq,hk])
        simp [hk ▸ hn,hk]
      · simp [hk]
    · rw [filterMap_cons_some (by rfl),foldl_cons,ih hr,get_noteChange,OrderedMap.find]
      by_cases hk : k = key
      · have hn : OrderedMap.find k rest = none :=
          OrderedMap.find_eq_none_iff.mpr fun e he heq => absurd (hlo e he) (by simp [← heq,hk])
        simp [hk ▸ hn,hk,StateChange.key,StateChange.value]
      · simp [hk,StateChange.key]

lemma get_applyTo_restoring (vs : Values) (m : StateMap) (k : StateKey) :
    (applyTo (restoring vs).changes m).get k = (vs.get k).getD (m.get k) := by
  rw [get_applyTo_empty,restoring,foldl_append,get_foldl_puts vs.sorted,get_foldl_deletes]
  change _ = (OrderedMap.find k vs.entries).getD (m.get k)
  rcases OrderedMap.find k vs.entries with _ | _ | v <;> rfl

namespace StateHistory

/-- The window holds transitions in the order of their heights, all from below `top`, and its totals
are theirs. -/
structure Upto (h : StateHistory) (top : UInt64) : Prop where
  bytes : h.bytes = (h.entries.map (·.bytes)).sum
  changes : h.changes = (h.entries.map (·.diff.changes.length)).sum
  sorted : h.entries.Pairwise fun a b => a.before.height ≤ b.before.height
  below : ∀ u ∈ h.entries, u.before.height < top

lemma upto_default (top : UInt64) : default.Upto top := ⟨rfl,rfl,.nil,fun _ h => (not_mem_nil h).elim⟩

variable {u : Undo} {bs cs : Nat} {top : UInt64} {l : List Undo}

lemma upto_tail {rest : List Undo} (h : (StateHistory.mk (u :: rest) bs cs).Upto top) :
    (StateHistory.mk rest (bs - u.bytes) (cs - u.diff.changes.length)).Upto top := by
  obtain ⟨hby,hc,hs,hb⟩ := h
  simp only [map_cons,sum_cons] at hby hc
  exact ⟨by simp only; omega,by simp only; omega,(pairwise_cons.mp hs).2, fun v hv => hb v (.tail u hv)⟩

lemma upto_evict (h : (StateHistory.mk l bs cs).Upto top) : (evict l bs cs).Upto top := by
  induction l generalizing bs cs with
  | nil => exact h
  | cons u rest ih =>
    rw [evict]
    split
    · exact ih (upto_tail h)
    · exact h

lemma upto_dropBelow {fl : UInt64} (h : (StateHistory.mk l bs cs).Upto top) :
    (dropBelow fl l bs cs).Upto top := by
  induction l generalizing bs cs with
  | nil => exact h
  | cons u rest ih =>
    rw [dropBelow]
    split
    · exact ih (upto_tail h)
    · exact h

lemma upto_snoc {h : StateHistory} (hu : h.Upto u.before.height) (ht : u.before.height < top) :
    (StateHistory.mk (h.entries ++ [u]) (h.bytes + u.bytes)
      (h.changes + u.diff.changes.length)).Upto top := by
  refine ⟨by simp [hu.bytes],by simp [hu.changes],?_,fun v hv => ?_⟩
  · refine pairwise_append.mpr ⟨hu.sorted,pairwise_singleton _ _,fun a ha b hb => ?_⟩
    obtain rfl := mem_singleton.mp hb
    exact UInt64.le_of_lt (hu.below a ha)
  · rcases mem_append.mp hv with hv | hv
    · exact UInt64.lt_trans (hu.below v hv) ht
    · obtain rfl := mem_singleton.mp hv
      exact ht

lemma evict_of_fits (hb : l.length ≤ maxStateHistoryBlocks)
    (hby : bs ≤ maxStateHistoryBytes) (hc : cs ≤ maxStateHistoryChanges) :
    evict l bs cs = ⟨l,bs,cs⟩ := by
  cases l with
  | nil => rfl
  | cons u rest =>
    rw [length_cons] at hb
    rw [evict,if_neg (by omega)]

lemma dropBelow_of_le {fl : UInt64} (h : ∀ u ∈ l, fl ≤ u.before.height) :
    dropBelow fl l bs cs = ⟨l,bs,cs⟩ := by
  cases l with
  | nil => rfl
  | cons u rest => rw [dropBelow,if_neg (UInt64.not_lt.mpr (h u mem_cons_self))]

lemma dropBelow_le (fl : UInt64) (l : List Undo) (bs cs : Nat) :
    (dropBelow fl l bs cs).entries.length ≤ l.length ∧ (dropBelow fl l bs cs).bytes ≤ bs ∧
      (dropBelow fl l bs cs).changes ≤ cs := by
  induction l generalizing bs cs with
  | nil => exact ⟨Nat.le_refl _,Nat.le_refl _,Nat.le_refl _⟩
  | cons u rest ih =>
    rw [dropBelow]
    split
    · obtain ⟨hl,hb,hc⟩ := ih (bs - u.bytes) (cs - u.diff.changes.length)
      rw [length_cons]
      omega
    · exact ⟨Nat.le_refl _,Nat.le_refl _,Nat.le_refl _⟩

lemma evict_suffix (l : List Undo) (bs cs : Nat) : (evict l bs cs).entries <:+ l := by
  induction l generalizing bs cs with
  | nil => exact suffix_refl _
  | cons u rest ih =>
    rw [evict]
    split
    · exact (ih _ _).trans (suffix_cons u rest)
    · exact suffix_refl _

lemma dropBelow_suffix (fl : UInt64) (l : List Undo) (bs cs : Nat) :
    (dropBelow fl l bs cs).entries <:+ l := by
  induction l generalizing bs cs with
  | nil => exact suffix_refl _
  | cons u rest ih =>
    rw [dropBelow]
    split
    · exact (ih _ _).trans (suffix_cons u rest)
    · exact suffix_refl _

lemma truncateBelow_evict {fl : UInt64}
    (h : l.Pairwise fun a b => a.before.height ≤ b.before.height) :
    (evict l bs cs).truncateBelow fl =
      evict (dropBelow fl l bs cs).entries (dropBelow fl l bs cs).bytes
        (dropBelow fl l bs cs).changes := by
  induction l generalizing bs cs with
  | nil => rfl
  | cons u rest ih =>
    obtain ⟨hlo,hr⟩ := pairwise_cons.mp h
    by_cases hu : u.before.height < fl
    · rw [dropBelow,if_pos hu,evict]
      split
      · exact ih hr
      · next hf =>
        obtain ⟨hl,hb,hc⟩ := dropBelow_le fl rest (bs - u.bytes) (cs - u.diff.changes.length)
        have hcu : truncateBelow ⟨u :: rest,bs,cs⟩ fl =
            dropBelow fl rest (bs - u.bytes) (cs - u.diff.changes.length) := if_pos hu
        rw [hcu]
        exact (evict_of_fits (by omega) (by omega) (by omega)).symm
    · have ha : ∀ v ∈ u :: rest, fl ≤ v.before.height := by
        intro v hv
        rcases mem_cons.mp hv with rfl | hv
        · exact UInt64.not_lt.mp hu
        · exact UInt64.le_trans (UInt64.not_lt.mp hu) (hlo v hv)
      rw [dropBelow,if_neg hu]
      exact dropBelow_of_le fun v hv => ha v ((evict_suffix _ _ _).subset hv)

lemma dropBelow_snoc {fl : UInt64} (hu : fl ≤ u.before.height)
    (h : (StateHistory.mk l bs cs).Upto top) :
    dropBelow fl (l ++ [u]) (bs + u.bytes) (cs + u.diff.changes.length) =
      ⟨(dropBelow fl l bs cs).entries ++ [u], (dropBelow fl l bs cs).bytes + u.bytes,
        (dropBelow fl l bs cs).changes + u.diff.changes.length⟩ := by
  induction l generalizing bs cs with
  | nil => exact dropBelow_of_le fun v hv => mem_singleton.mp hv ▸ hu
  | cons v rest ih =>
    rw [cons_append,dropBelow,dropBelow]
    split
    · have hb := h.bytes
      have hc := h.changes
      simp only [map_cons,sum_cons] at hb hc
      rw [← ih (upto_tail h),show bs + u.bytes - v.bytes = bs - v.bytes + u.bytes by omega,
        show cs + u.diff.changes.length - v.diff.changes.length =
          cs - v.diff.changes.length + u.diff.changes.length by omega]
    · rfl

section Record

variable {h : StateHistory} {pre after : Checkpoint} {st : InMemoryState}
  {diffs : List StateDiff} {fl : UInt64}

lemma capture_before {undo : Undo} (hc : capture pre after st diffs = some undo) :
    undo.before = pre ∧ undo.after = after := by
  rw [capture,Option.bind_eq_bind,Option.bind_eq_some_iff] at hc
  obtain ⟨acc,-,hc⟩ := hc
  cases hc
  exact ⟨rfl,rfl⟩

lemma upto_record (hu : h.Upto pre.height) (ha : pre.height < after.height) :
    (h.record (some pre) after st diffs).Upto after.height := by
  rw [record]
  cases hc : capture pre after st diffs with
  | none => exact upto_default _
  | some undo =>
    obtain ⟨hb,-⟩ := capture_before hc
    exact upto_evict (upto_snoc (hb ▸ hu) (hb ▸ ha))

lemma truncateBelow_record (hu : h.Upto pre.height) (hf : fl ≤ pre.height) :
    (h.record (some pre) after st diffs).truncateBelow fl =
      (h.truncateBelow fl).record (some pre) after st diffs := by
  rw [record,record]
  cases hc : capture pre after st diffs with
  | none => rfl
  | some undo =>
    obtain ⟨hbe,-⟩ := capture_before hc
    have hs : (h.entries ++ [undo]).Pairwise fun a b => a.before.height ≤ b.before.height := by
      refine pairwise_append.mpr ⟨hu.sorted,pairwise_singleton _ _,fun a ha b hb => ?_⟩
      obtain rfl := mem_singleton.mp hb
      exact hbe ▸ UInt64.le_of_lt (hu.below a ha)
    simp only [truncateBelow_evict hs,dropBelow_snoc (hbe ▸ hf) hu]
    rfl

lemma truncateBelow_above (hu : h.Upto fl) : h.truncateBelow fl = default := by
  obtain ⟨es,bs,cs⟩ := h
  rw [truncateBelow]
  simp only
  induction es generalizing bs cs with
  | nil =>
    have hb : bs = 0 := hu.bytes
    have hc : cs = 0 := hu.changes
    rw [hb,hc]
    rfl
  | cons u rest ih =>
    rw [dropBelow,if_pos (hu.below u mem_cons_self)]
    exact ih _ _ (upto_tail hu)

end Record
end StateHistory

end Astrolune.Storage
