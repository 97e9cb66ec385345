import Mathlib.Data.List.TakeWhile
import Astrolune.State.Tree

namespace Astrolune.State
open Lib List Option

namespace Node

def Ordered (n : Node) : Prop := n.entries.Pairwise fun a b => a.1 < b.1

lemma Ordered.left {left right : Node} (h : (branch left right).Ordered) : left.Ordered :=
  (pairwise_append.mp h).1

lemma Ordered.right {left right : Node} (h : (branch left right).Ordered) : right.Ordered :=
  (pairwise_append.mp h).2.1

lemma lastKey_mem (n : Node) : ∃ v, (n.lastKey,v) ∈ n.entries := by
  induction n with
  | leaf key value => exact ⟨value,mem_singleton_self _⟩
  | branch left right _ ih =>
    obtain ⟨v,hv⟩ := ih
    exact ⟨v,mem_append_right _ hv⟩

variable {n left : Node} {ws : List (StateKey × Bytes)}

lemma Ordered.le_lastKey (h : n.Ordered) : ∀ e ∈ n.entries, e.1 ≤ n.lastKey := by
  induction n with
  | leaf key value =>
    intro e he
    rw [mem_singleton.mp he]
    exact le_refl _
  | branch left right _ ih =>
    intro e he
    rcases mem_append.mp he with he | he
    · obtain ⟨v,hv⟩ := right.lastKey_mem
      exact ((pairwise_append.mp h).2.2 e he _ hv).le
    · exact ih h.right e he

lemma Ordered.lastKey_lt {right : Node} (h : (branch left right).Ordered) :
    ∀ e ∈ right.entries, left.lastKey < e.1 := by
  intro e he
  obtain ⟨v,hv⟩ := left.lastKey_mem
  exact (pairwise_append.mp h).2.2 _ hv e he

lemma Ordered.get_eq (h : n.Ordered) (key : StateKey) :
    n.get key = OrderedMap.find key n.entries := by
  induction n with
  | leaf last value => simp [get,entries,OrderedMap.find]
  | branch left right ihl ihr =>
    rw [get,entries,OrderedMap.find_append]
    split_ifs with hk
    · have hr : OrderedMap.find key right.entries = none := by
        rw [OrderedMap.find_eq_none_iff]
        intro e he
        exact (hk.trans_lt (h.lastKey_lt e he)).ne
      rw [ihl h.left,hr,or_none]
    · have hl : OrderedMap.find key left.entries = none := by
        rw [OrderedMap.find_eq_none_iff]
        intro e he
        exact ((h.left.le_lastKey e he).trans_lt (not_le.mp hk)).ne'
      rw [ihr h.right,hl,none_or]

def mapValues (f : StateKey → Bytes → Bytes) : Node → Node
  | leaf key value => leaf key (f key value)
  | branch left right => branch (left.mapValues f) (right.mapValues f)

lemma mapValues_congr {f g : StateKey → Bytes → Bytes}
    (h : ∀ e ∈ n.entries, f e.1 e.2 = g e.1 e.2) : n.mapValues f = n.mapValues g := by
  induction n with
  | leaf key value => simp [mapValues,h (key,value) (mem_singleton_self _)]
  | branch left right ihl ihr =>
    rw [mapValues,mapValues,ihl fun e he => h e (mem_append_left _ he),
      ihr fun e he => h e (mem_append_right _ he)]

lemma mapValues_id (n : Node) : n.mapValues (fun _ v => v) = n := by
  induction n with
  | leaf key value => rfl
  | branch left right ihl ihr => rw [mapValues,ihl,ihr]

def written (writes : List (StateKey × Bytes)) (key : StateKey) (value : Bytes) : Bytes :=
  (OrderedMap.find key writes).getD value

lemma split_left_le : ∀ w ∈ (left.split ws).1, w.1 ≤ left.lastKey := by
  intro w hw
  simpa [split] using mem_takeWhile_imp hw

lemma split_right_lt (hw : ws.Pairwise fun a b => a.1 < b.1) :
    ∀ w ∈ (left.split ws).2, left.lastKey < w.1 := by
  unfold split
  induction ws with
  | nil => simp
  | cons e rest ih =>
    obtain ⟨hh,hr⟩ := pairwise_cons.mp hw
    intro w hw
    by_cases he : e.1 ≤ left.lastKey
    · exact ih hr w (by simpa [dropWhile_cons,he] using hw)
    · simp only [dropWhile_cons,he,decide_false,Bool.false_eq_true,if_false] at hw
      rcases mem_cons.mp hw with rfl | hw
      · exact not_le.mp he
      · exact (not_le.mp he).trans (hh w hw)

lemma split_append (left : Node) (ws : List (StateKey × Bytes)) :
    (left.split ws).1 ++ (left.split ws).2 = ws := takeWhile_append_dropWhile

lemma replace_eq (h : n.Ordered)
    (hw : ws.Pairwise fun a b => a.1 < b.1) (hsu : ∀ w ∈ ws, ∃ v, (w.1,v) ∈ n.entries) :
    n.replace ws = n.mapValues (written ws) := by
  induction n generalizing ws with
  | leaf key value =>
    cases ws with
    | nil => rfl
    | cons w rest =>
      obtain ⟨v,hv⟩ := hsu w mem_cons_self
      have hk : w.1 = key := (Prod.mk.inj (mem_singleton.mp hv)).1
      simp [replace,mapValues,written,OrderedMap.find,hk]
  | branch left right ihl ihr =>
    have hp := split_append left ws
    have hs := pairwise_append.mp (hp.symm ▸ hw)
    rw [replace]
    split_ifs with hn
    · rw [hn]
      exact (mapValues_id _).symm
    · have hl : ∀ w ∈ (left.split ws).1, ∃ v, (w.1,v) ∈ left.entries := by
        intro w hm
        obtain ⟨v,hv⟩ := hsu w (hp ▸ mem_append_left _ hm)
        rcases mem_append.mp hv with hv | hv
        · exact ⟨v,hv⟩
        · exact absurd (split_left_le w hm) (not_le.mpr (h.lastKey_lt (w.1,v) hv))
      have hr : ∀ w ∈ (left.split ws).2, ∃ v, (w.1,v) ∈ right.entries := by
        intro w hm
        obtain ⟨v,hv⟩ := hsu w (hp ▸ mem_append_right _ hm)
        rcases mem_append.mp hv with hv | hv
        · exact absurd (h.left.le_lastKey (w.1,v) hv) (not_le.mpr (split_right_lt hw w hm))
        · exact ⟨v,hv⟩
      rw [ihl h.left hs.1 hl,ihr h.right hs.2.1 hr,mapValues]
      congr 1
      · refine mapValues_congr fun e he => ?_
        have hno : OrderedMap.find e.1 (left.split ws).2 = none := by
          rw [OrderedMap.find_eq_none_iff]
          intro w hm
          exact ((h.left.le_lastKey e he).trans_lt (split_right_lt hw w hm)).ne
        rw [written,written,← hp,OrderedMap.find_append,hno,or_none,hp]
      · refine mapValues_congr fun e he => ?_
        have hno : OrderedMap.find e.1 (left.split ws).1 = none := by
          rw [OrderedMap.find_eq_none_iff]
          intro w hm
          exact ((split_left_le w hm).trans_lt (h.lastKey_lt e he)).ne'
        rw [written,written,← hp,OrderedMap.find_append,hno,none_or,hp]

end Node

namespace Tree

def levelEntries (level : List Node) : List (StateKey × Bytes) := level.flatMap Node.entries

lemma levelEntries_pairUp (lv : List Node) :
    levelEntries (pairUp .branch lv) = levelEntries lv := by
  induction lv using pairUp.induct with
  | case1 => rfl
  | case2 a => rfl
  | case3 a b rest ih =>
    simp only [levelEntries] at ih
    simp [levelEntries,pairUp,Node.entries,ih]

lemma entries_collapse {fuel : Nat} {lv : List Node} (h : lv.length ≤ fuel + 1) :
    (collapse .branch fuel lv).elim [] Node.entries = levelEntries lv := by
  induction fuel generalizing lv with
  | zero =>
    cases lv with
    | nil => rfl
    | cons a rest =>
      obtain rfl : rest = [] := by simpa using h
      simp [collapse,levelEntries]
  | succ fuel ih =>
    rw [collapse]
    split_ifs with hlo
    · have hl := length_pairUp Node.branch lv
      rw [ih (by omega),levelEntries_pairUp]
    · cases lv with
      | nil => rfl
      | cons a rest =>
        obtain rfl : rest = [] := by simpa using hlo
        simp [levelEntries]

lemma entries_fromMap (data : StateMap) : (fromMap data).entries = data.entries := by
  rw [entries,fromMap,entries_collapse (by simp)]
  simp [levelEntries,flatMap_map,Node.entries]

lemma ordered_root {data : StateMap} {n : Node} (h : (fromMap data).root = some n) :
    n.Ordered ∧ n.entries = data.entries := by
  have he := entries_fromMap data
  rw [entries,h,elim_some] at he
  refine ⟨?_,he⟩
  rw [Node.Ordered,he]
  exact data.sorted

lemma get_fromMap (data : StateMap) (key : StateKey) : (fromMap data).get key = data.get key := by
  have he := entries_fromMap data
  rw [get,OrderedMap.get,← he,entries]
  cases h : (fromMap data).root with
  | none => rfl
  | some n => exact (ordered_root h).1.get_eq key

lemma toMap_fromMap (data : StateMap) : (fromMap data).toMap = data := by
  rw [toMap,entries_fromMap]
  exact data.collect_entries

lemma bytes_eq (n : Node) : n.bytes = (n.entries.map fun e => entrySize e.1 e.2).sum := by
  induction n with
  | leaf key value => simp [Node.bytes,Node.entries]
  | branch left right ihl ihr => simp [Node.bytes,Node.entries,ihl,ihr]

lemma bytes_fromMap (data : StateMap) :
    (fromMap data).root.elim 0 Node.bytes = data.total entrySize := by
  have he := entries_fromMap data
  rw [OrderedMap.total,← he,entries]
  cases (fromMap data).root with
  | none => rfl
  | some n => exact bytes_eq n

lemma count_eq (n : Node) : n.count = n.entries.length := by
  induction n with
  | leaf key value => rfl
  | branch left right ihl ihr => simp [Node.count,Node.entries,ihl,ihr]

lemma len_fromMap (data : StateMap) : (fromMap data).len = data.entries.length := by
  rw [len,← entries_fromMap data,entries]
  cases (fromMap data).root with
  | none => rfl
  | some n => exact count_eq n

lemma map_mapValues_fromMap (f : StateKey → Bytes → Bytes) (data : StateMap) :
    (fromMap data).root.map (Node.mapValues f) = (fromMap (data.mapValues f)).root := by
  rw [fromMap,map_collapse fun _ _ => rfl]
  simp [fromMap,OrderedMap.mapValues,Function.comp_def,Node.mapValues]

end Tree

structure Bounded (data : StateMap) : Prop where
  count : data.entries.length ≤ maxStateEntries
  keys : ∀ e ∈ data.entries, e.1.length ≤ maxStateKeyBytes
  values : ∀ e ∈ data.entries, e.2.length ≤ maxStateValueBytes
  size : encodedSize data ≤ maxSnapshotBytes

lemma bounded_empty : Bounded .empty := by
  refine ⟨?_,?_,?_,?_⟩ <;> simp [OrderedMap.empty,encodedSize,OrderedMap.total,headerBytes,
    maxSnapshotBytes,maxStateEntries]

variable {data ws : StateMap} {acc next : StateMap × Nat} {cs : List StateChange}
  {diffs : List StateDiff}

lemma Bounded.erase (h : Bounded data) (key : StateKey) :
    Bounded (data.erase key) where
  count := (length_filter_le _ _).trans h.count
  keys e he := h.keys e (mem_of_mem_filter he)
  values e he := h.values e (mem_of_mem_filter he)
  size := by
    have hs := h.size
    have ht := data.total_erase entrySize key
    unfold encodedSize at hs ⊢
    omega

lemma Bounded.insert {data : StateMap} (h : Bounded data) {key : StateKey} {value : Bytes}
    (hk : key.length ≤ maxStateKeyBytes) (hv : value.length ≤ maxStateValueBytes)
    (hc : data.get key = none → data.entries.length < maxStateEntries)
    (hs : encodedSize (data.insert key value) ≤ maxSnapshotBytes) :
    Bounded (data.insert key value) where
  count := by
    have ht := data.total_insert (fun _ _ => 1) key value
    rw [OrderedMap.total_one,OrderedMap.total_one] at ht
    have hl := h.count
    cases hg : data.get key with
    | none =>
      have := hc hg
      rw [hg,elim_none] at ht
      omega
    | some old =>
      rw [hg,elim_some] at ht
      omega
  keys e he := by
    rcases OrderedMap.mem_insertEntry he with rfl | he
    · exact hk
    · exact h.keys e he
  values e he := by
    rcases OrderedMap.mem_insertEntry he with rfl | he
    · exact hv
    · exact h.values e he
  size := hs

lemma stageChange_ok {change : StateChange} (hb : Bounded acc.1)
    (hs : acc.2 = encodedSize acc.1) (h : stageChange acc change = .ok next) :
    Bounded next.1 ∧ next.2 = encodedSize next.1 ∧ next.1 = applyChange acc.1 change := by
  obtain ⟨data,size⟩ := acc
  dsimp only at hb hs
  cases change with
  | put key value =>
    simp only [stageChange,bind_eq_ok,ensure_eq_ok,pure_ok_iff,not_or,not_and,not_lt] at h
    obtain ⟨_,hk,_,hv,_,⟨hm,hc⟩,rfl⟩ := h
    have hbe := data.total_erase entrySize key
    have ha := data.total_insert entrySize key value
    have hn : size - (data.get key).elim 0 (entrySize key) + entrySize key value =
        encodedSize (data.insert key value) := by
      unfold encodedSize at hs ⊢
      omega
    refine ⟨hb.insert hk hv (fun hg => ?_) (hn ▸ hm),hn,rfl⟩
    exact lt_of_le_of_ne hb.count (hc hg)
  | delete key =>
    simp only [stageChange,bind_eq_ok,ensure_eq_ok,pure_ok_iff] at h
    obtain ⟨_,_,rfl⟩ := h
    have hbe := data.total_erase entrySize key
    refine ⟨hb.erase key,?_,rfl⟩
    unfold encodedSize at hs ⊢
    dsimp only
    omega

lemma foldlM_stageChange (hb : Bounded acc.1) (hs : acc.2 = encodedSize acc.1)
    (h : cs.foldlM stageChange acc = .ok next) :
    Bounded next.1 ∧ next.1 = applyTo cs acc.1 := by
  induction cs generalizing acc with
  | nil =>
    cases h
    exact ⟨hb,rfl⟩
  | cons change rest ih =>
    rw [foldlM_cons,bind_eq_ok] at h
    obtain ⟨middle,hst,hr⟩ := h
    obtain ⟨hb',hs',hm⟩ := stageChange_ok hb hs hst
    obtain ⟨hn,heq⟩ := ih hb' hs' hr
    exact ⟨hn,by rw [heq,hm]; rfl⟩

def overlay (data writes : StateMap) : StateMap := data.mapValues (Node.written writes.entries)

lemma get_overlay (data ws : StateMap) (key : StateKey) :
    (overlay data ws).get key = (data.get key).map fun value => (ws.get key).getD value :=
  data.get_mapValues _ key

lemma overlay_empty (data : StateMap) : overlay data .empty = data :=
  OrderedMap.ext_get fun key => by simp [get_overlay]

lemma overlay_insert {key : StateKey} {original : Bytes}
    (h : data.get key = some original) (value : Bytes) :
    overlay data (ws.insert key value) = (overlay data ws).insert key value := by
  refine OrderedMap.ext_get fun q => ?_
  simp only [get_overlay,OrderedMap.get_insert]
  by_cases hq : q = key
  · simp [hq,h]
  · simp [hq]

lemma planWrites_ok {planned : StateMap} {bs : Nat}
    (hkey : ∀ w ∈ ws.entries, (data.get w.1).isSome) (hb : Bounded (overlay data ws))
    (hby : bs = encodedSize (overlay data ws))
    (h : (Tree.fromMap data).planWrites cs bs ws = .ok (some planned)) :
    (∀ w ∈ planned.entries, (data.get w.1).isSome) ∧ Bounded (overlay data planned) ∧
      overlay data planned = applyTo cs (overlay data ws) := by
  induction cs generalizing bs ws with
  | nil =>
    simp only [Tree.planWrites,Except.ok.injEq,some.injEq] at h
    subst h
    exact ⟨hkey,hb,rfl⟩
  | cons change rest ih =>
    cases change with
    | put key value =>
      simp only [Tree.planWrites,bind_eq_ok,ensure_eq_ok,Tree.get_fromMap] at h
      obtain ⟨_,hke,_,hv,h⟩ := h
      cases hor : data.get key with
      | none => simp [hor] at h
      | some original =>
        simp only [hor,bind_eq_ok,ensure_eq_ok] at h
        obtain ⟨_,hm,hr⟩ := h
        have hg : (overlay data ws).get key = some ((ws.get key).getD original) := by
          rw [get_overlay,hor,map_some]
        have hbe := (overlay data ws).total_erase entrySize key
        have ha := (overlay data ws).total_insert entrySize key value
        rw [hg,elim_some] at hbe ha
        have hn : bs - ((ws.get key).getD original).length + value.length =
            encodedSize (overlay data (ws.insert key value)) := by
          rw [overlay_insert hor]
          have ho : entrySize key ((ws.get key).getD original) =
            16 + key.length + ((ws.get key).getD original).length := rfl
          have hp : entrySize key value = 16 + key.length + value.length := rfl
          unfold encodedSize at hby ⊢
          omega
        have hb' : Bounded (overlay data (ws.insert key value)) := by
          rw [overlay_insert hor]
          refine hb.insert hke hv (fun hno => ?_) ?_
          · rw [hg] at hno
            cases hno
          · rw [← overlay_insert hor]
            exact hn ▸ hm
        have hk' : ∀ w ∈ (ws.insert key value).entries, (data.get w.1).isSome := by
          intro w hw
          rcases OrderedMap.mem_insertEntry hw with rfl | hw
          · simp [hor]
          · exact hkey w hw
        obtain ⟨hk,hbo,heq⟩ := ih hk' hb' hn hr
        exact ⟨hk,hbo,by rw [heq,overlay_insert hor]; rfl⟩
    | delete key =>
      simp only [Tree.planWrites,bind_eq_ok,ensure_eq_ok,Tree.get_fromMap] at h
      obtain ⟨_,hke,h⟩ := h
      cases hor : data.get key with
      | some original => simp [hor] at h
      | none =>
        simp only [hor,isSome_none,Bool.false_eq_true,if_false] at h
        have hs : (overlay data ws).erase key = overlay data ws := by
          refine OrderedMap.ext_get fun q => ?_
          rw [OrderedMap.get_erase]
          split_ifs with hq
          · rw [hq,get_overlay,hor,map_none]
          · rfl
        obtain ⟨hk,hbo,heq⟩ := ih hkey hb hby h
        exact ⟨hk,hbo,by rw [heq,applyTo,applyTo,foldl_cons,applyChange,hs]⟩

lemma Tree.prepare_ok {next : Tree} (hb : Bounded data)
    (h : (fromMap data).prepare diffs = .ok (some next)) :
    next = fromMap (applyTo (diffs.flatMap StateDiff.changes) data) ∧
      Bounded (applyTo (diffs.flatMap StateDiff.changes) data) := by
  simp only [prepare,bind_eq_ok,pure_ok_iff,map_eq_some_iff] at h
  obtain ⟨_,hp,planned,rfl,rfl⟩ := h
  have hs : headerBytes + (fromMap data).root.elim 0 Node.bytes =
      encodedSize (overlay data .empty) := by rw [bytes_fromMap,overlay_empty,encodedSize]
  obtain ⟨hk,hbo,heq⟩ := planWrites_ok (by simp [OrderedMap.empty]) (by rwa [overlay_empty]) hs hp
  rw [overlay_empty] at heq
  refine ⟨?_,heq ▸ hbo⟩
  rw [← heq]
  change Tree.mk _ = Tree.mk (fromMap (data.mapValues (Node.written planned.entries))).root
  rw [← map_mapValues_fromMap]
  refine congrArg Tree.mk (Option.map_congr fun n hn => ?_)
  obtain ⟨ho,he⟩ := ordered_root hn
  refine Node.replace_eq ho planned.sorted fun w hw => ?_
  obtain ⟨v,hv⟩ := isSome_iff_exists.mp (hk w hw)
  exact ⟨v,he ▸ OrderedMap.get_eq_some_iff.mp hv⟩

lemma Tree.transition_ok {next : Tree}
    (hb : Bounded data) (h : (fromMap data).transition diffs = .ok next) :
    next = fromMap (applyTo (diffs.flatMap StateDiff.changes) data) ∧
      Bounded (applyTo (diffs.flatMap StateDiff.changes) data) := by
  rw [transition,bind_eq_ok] at h
  obtain ⟨prepared,hp,h⟩ := h
  cases prepared with
  | some tree =>
    cases h
    exact prepare_ok hb hp
  | none =>
    simp only [stage,toMap_fromMap,bind_eq_ok,pure_ok_iff] at h
    obtain ⟨staged,⟨acc,hf,rfl⟩,rfl⟩ := h
    obtain ⟨hbo,heq⟩ := foldlM_stageChange hb rfl hf
    rw [← heq]
    exact ⟨rfl,hbo⟩

end Astrolune.State
