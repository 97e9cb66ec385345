import Astrolune.State.Fits
import Astrolune.Storage.Readings

namespace Astrolune.Storage
open Lib Codec State AppendOnlyStorage List

namespace StateHistory

variable {h : StateHistory} {l : List Undo} {bytes changes : Nat}

def Exceeds (blocks bytes changes : Nat) : Prop :=
  maxStateHistoryBlocks < blocks ∨ maxStateHistoryBytes < bytes ∨ maxStateHistoryChanges < changes

instance (blocks bytes changes : Nat) : Decidable (Exceeds blocks bytes changes) :=
  inferInstanceAs (Decidable (_ ∨ _))

/-- The eviction as it runs: it panics when there is nothing to drop, or less to subtract from. -/
def checkedEvict : List Undo → Nat → Nat → Option StateHistory
  | [], bytes, changes => if Exceeds 0 bytes changes then none else some ⟨[], bytes, changes⟩
  | u :: rest, bytes, changes =>
    if Exceeds (rest.length + 1) bytes changes then
      if u.bytes ≤ bytes ∧ u.diff.changes.length ≤ changes then
        checkedEvict rest (bytes - u.bytes) (changes - u.diff.changes.length)
      else none
    else some ⟨u :: rest, bytes, changes⟩

def checkedRecord (h : StateHistory) (before : Option Checkpoint) (after : Checkpoint)
    (state : InMemoryState) (diffs : List StateDiff) : Option StateHistory :=
  match before with
  | none => some .default
  | some before =>
    match capture before after state diffs with
    | none => some .default
    | some undo => do
      let bytes ← checkedAdd64 h.bytes undo.bytes
      let changes ← checkedAdd64 h.changes undo.diff.changes.length
      checkedEvict (h.entries ++ [undo]) bytes changes

def checkedDropBelow (floor : UInt64) : List Undo → Nat → Nat → Option StateHistory
  | [], bytes, changes => some ⟨[], bytes, changes⟩
  | u :: rest, bytes, changes =>
    if u.before.height < floor then
      if u.bytes ≤ bytes ∧ u.diff.changes.length ≤ changes then
        checkedDropBelow floor rest (bytes - u.bytes) (changes - u.diff.changes.length)
      else none
    else some ⟨u :: rest, bytes, changes⟩

structure Totals (h : StateHistory) : Prop where
  bytes : h.bytes = (h.entries.map (·.bytes)).sum
  changes : h.changes = (h.entries.map (·.diff.changes.length)).sum

structure Within (h : StateHistory) : Prop extends Totals h where
  limits : ¬Exceeds h.entries.length h.bytes h.changes

lemma Totals.tail {u : Undo} (h : Totals ⟨u :: l,bytes,changes⟩) :
    (u.bytes ≤ bytes ∧ u.diff.changes.length ≤ changes) ∧
      Totals ⟨l,bytes - u.bytes,changes - u.diff.changes.length⟩ := by
  obtain ⟨hb,hc⟩ := h
  simp only [map_cons,sum_cons] at hb hc
  refine ⟨by omega,?_,?_⟩
  · simp only
    omega
  · simp only
    omega

lemma within_default : default.Within := ⟨⟨rfl,rfl⟩,by simp [Exceeds,default]⟩

lemma checkedEvict_eq (h : Totals ⟨l,bytes,changes⟩) :
    checkedEvict l bytes changes = some (evict l bytes changes) ∧ (evict l bytes changes).Within := by
  induction l generalizing bytes changes with
  | nil =>
    obtain ⟨rfl,rfl⟩ : bytes = 0 ∧ changes = 0 := ⟨h.bytes,h.changes⟩
    exact ⟨rfl,within_default⟩
  | cons u rest ih =>
    obtain ⟨hl,ht⟩ := h.tail
    rw [checkedEvict,if_pos hl]
    by_cases ho : Exceeds (rest.length + 1) bytes changes
    · have he : evict (u :: rest) bytes changes =
          evict rest (bytes - u.bytes) (changes - u.diff.changes.length) := if_pos ho
      rw [if_pos ho,he]
      exact ih ht
    · have he : evict (u :: rest) bytes changes = ⟨u :: rest,bytes,changes⟩ := if_neg ho
      rw [if_neg ho,he]
      exact ⟨rfl,h,ho⟩

lemma checkedDropBelow_eq (fl : UInt64) (h : Within ⟨l,bytes,changes⟩) :
    checkedDropBelow fl l bytes changes = some (dropBelow fl l bytes changes) ∧
      (dropBelow fl l bytes changes).Within := by
  induction l generalizing bytes changes with
  | nil => exact ⟨rfl,h⟩
  | cons u rest ih =>
    obtain ⟨hl,ht⟩ := h.toTotals.tail
    rw [checkedDropBelow,if_pos hl,dropBelow]
    split
    · refine ih ⟨ht,?_⟩
      have hli := h.limits
      simp only [Exceeds,length_cons] at hli ⊢
      omega
    · exact ⟨rfl,h⟩

lemma capture_within {pre after : Checkpoint} {st : InMemoryState} {diffs : List StateDiff}
    {undo : Undo} (h : capture pre after st diffs = some undo) :
    undo.bytes ≤ maxStateHistoryBytes ∧ undo.diff.changes.length ≤ maxStateHistoryChanges := by
  rw [capture,Option.bind_eq_bind,Option.bind_eq_some_iff] at h
  obtain ⟨acc,ha,h⟩ := h
  cases h
  obtain ⟨hl,hb,hk⟩ := foldlM_captureChange_preserves
    (P := fun acc => acc.changes.length = acc.keys.length ∧ acc.bytes ≤ maxStateHistoryBytes ∧
      acc.keys.length ≤ maxStateHistoryChanges) ⟨rfl,by decide,by decide⟩ ha
    fun acc acc' change _ ha h => by
      rcases captureChange_eq_some h with ⟨-,rfl⟩ | ⟨bytes,hb,hk,rfl⟩
      · exact ha
      · simp only [length_append,length_cons,length_nil]
        omega
  exact ⟨hb,hl ▸ hk⟩

lemma Within.record (hw : h.Within) (pre : Option Checkpoint) (after : Checkpoint)
    (st : InMemoryState) (diffs : List StateDiff) :
    h.checkedRecord pre after st diffs = some (h.record pre after st diffs) ∧
      (h.record pre after st diffs).Within := by
  cases pre with
  | none => exact ⟨rfl,within_default⟩
  | some pre =>
    simp only [checkedRecord,StateHistory.record]
    cases hc : capture pre after st diffs with
    | none => exact ⟨rfl,within_default⟩
    | some undo =>
      obtain ⟨hb,hch⟩ := capture_within hc
      have hl := hw.limits
      simp only [Exceeds,maxStateHistoryBytes,maxStateHistoryChanges] at hl hb hch
      dsimp only
      rw [checkedAdd64,if_pos (by omega),checkedAdd64,if_pos (by omega)]
      exact checkedEvict_eq ⟨by simp [hw.bytes],by simp [hw.changes]⟩

lemma Within.truncateBelow (hw : h.Within) (fl : UInt64) : (h.truncateBelow fl).Within :=
  (checkedDropBelow_eq fl hw).2

end StateHistory

abbrev Position := Checkpoint × InMemoryState

/-- The entries take the last transitions of a chain back, one by one. Both come newest first. -/
inductive Covers : List Position → List Undo → Prop where
  | nil (chain : List Position) : Covers chain []
  | cons {p q : Position} {chain : List Position} {u : Undo} {entries : List Undo}
      (older : Covers (p :: chain) entries) (before : u.before = p.1) (after : u.after = q.1)
      (next : q.1.height.toNat = p.1.height.toNat + 1)
      (keys : ∀ c ∈ u.diff.changes, c.key.length ≤ maxStateKeyBytes)
      (undo : applyTo u.diff.changes q.2.map = p.2.map) : Covers (q :: p :: chain) (u :: entries)

section Window

variable {chain : List Position} {es entries' : List Undo} {q : Position}

lemma Covers.take (h : Covers chain es) (hl : entries' <+: es) : Covers chain entries' := by
  induction h generalizing entries' with
  | nil chain =>
    rw [prefix_nil.mp hl]
    exact .nil chain
  | @cons p q chain u es older pre after next keys undo ih =>
    cases entries' with
    | nil => exact .nil _
    | cons v rest =>
      obtain ⟨rfl,hr⟩ := cons_prefix_cons.mp hl
      exact .cons (ih hr) pre after next keys undo

lemma Covers.heights (h : Covers (q :: chain) es) :
    es.length ≤ q.1.height.toNat ∧ es.map (·.before.height.toNat) =
      (range' (q.1.height.toNat - es.length) es.length).reverse := by
  generalize ha : q :: chain = all at h
  induction h generalizing q chain with
  | nil all => exact ⟨Nat.zero_le _,rfl⟩
  | cons older pre after next keys undo ih =>
    obtain ⟨rfl,rfl⟩ := cons.inj ha
    obtain ⟨hl,hh⟩ := ih rfl
    rw [length_cons,map_cons,hh,pre]
    refine ⟨by omega,?_⟩
    rw [next,Nat.add_sub_add_right,range'_1_concat,reverse_append, Nat.sub_add_cancel hl]
    rfl

def Values.Short (values : Values) : Prop :=
  ∀ k, values.get k ≠ none → k.length ≤ maxStateKeyBytes

variable {vs : Values} {st target : InMemoryState}

lemma Covers.readBack {height : UInt64} {head : StateMap}
    (h : Covers (q :: chain) es) (hs : vs.Short)
    (hva : ∀ k, q.2.map.get k = (vs.get k).getD (head.get k))
    (hh : ∃ u ∈ es, u.before.height = height) :
    ∃ p ∈ q :: chain, p.1.height = height ∧ ∃ values', Values.Short values' ∧
      readBack height es q.1 vs = .ok (p.1,values') ∧
      ∀ k, p.2.map.get k = (values'.get k).getD (head.get k) := by
  generalize ha : q :: chain = all at h
  induction h generalizing q chain vs with
  | nil all =>
    obtain ⟨u,hu,-⟩ := hh
    cases hu
  | @cons p q chain u es older pre after next keys undo ih =>
    obtain ⟨rfl,rfl⟩ := cons.inj ha
    have hb : ∀ k, p.2.map.get k =
        ((u.diff.changes.foldl noteChange vs).get k).getD (head.get k) := fun k =>
      undo ▸ get_applyTo u.diff.changes vs _ head hva k
    have hs' : Values.Short (u.diff.changes.foldl noteChange vs) := by
      intro k hk
      by_cases hm : ∃ c ∈ u.diff.changes, k = c.key
      · obtain ⟨c,hc,rfl⟩ := hm
        exact keys c hc
      · refine hs k ?_
        rwa [get_foldl_noteChange_of_notMem fun c hc heq => hm ⟨c,hc,heq⟩] at hk
    rw [Storage.readBack,if_neg (not_not_intro after.symm)]
    dsimp only
    by_cases hf : u.before.height = height
    · rw [if_pos hf]
      refine ⟨p,mem_cons_of_mem _ mem_cons_self,pre ▸ hf,_,hs',?_,hb⟩
      rw [pre]
    · rw [if_neg hf]
      have hr : ∃ v ∈ es, v.before.height = height := by
        obtain ⟨v,hv,hh⟩ := hh
        rcases mem_cons.mp hv with rfl | hv
        · exact absurd hh hf
        · exact ⟨v,hv,hh⟩
      obtain ⟨p',hp',hr⟩ := ih hs' hb hr rfl
      exact ⟨p',mem_cons_of_mem _ hp',pre ▸ hr⟩

lemma fits_restoring (hs : vs.Short)
    (ht : ∀ k, target.map.get k = (vs.get k).getD (st.map.get k)) :
    Fits (restoring vs).changes st.map := by
  have hg : ∀ e ∈ vs.entries, vs.get e.1 = some e.2 := fun e he =>
    OrderedMap.get_eq_some_iff.mpr he
  refine fits_append.mpr ⟨?_,fits_puts target.bounded ?_ ?_⟩
  · have hd : vs.entries.map (fun e => StateChange.delete e.1) =
        (vs.entries.map (·.1)).map .delete := by simp
    rw [hd]
    refine fits_deletes st.bounded fun key hke => ?_
    obtain ⟨e,he,rfl⟩ := mem_map.mp hke
    exact hs e.1 (by rw [hg e he]; simp)
  · intro k v hk
    rw [get_applyTo_empty,get_foldl_deletes] at hk
    rw [ht k]
    change (Option.getD (OrderedMap.find k vs.entries) _) = _
    cases hf : OrderedMap.find k vs.entries <;> simp [hf] at hk ⊢
    exact hk
  · intro c hc
    obtain ⟨e,he,hv⟩ := mem_filterMap.mp hc
    obtain ⟨value,hso,rfl⟩ := Option.map_eq_some_iff.mp hv
    refine ⟨e.1,value,rfl,?_⟩
    rw [ht,hg e he,Option.getD_some,hso]

lemma commitVerified_restoring {H : Hasher} (hs : vs.Short)
    (ht : ∀ k, target.map.get k = (vs.get k).getD (st.map.get k)) :
    st.commitVerified H (st.root H) [restoring vs] (target.root H) = .ok target := by
  have hc : [restoring vs].flatMap StateDiff.changes = (restoring vs).changes := by simp
  obtain ⟨next,hn⟩ := InMemoryState.prepare_iff_fits.mpr (hc ▸ fits_restoring hs ht)
  have heq : next = target := by
    apply InMemoryState.ext
    rw [(InMemoryState.prepare_ok hn).2,hc]
    refine OrderedMap.ext_get fun k => ?_
    rw [get_applyTo_restoring,ht k]
  rw [InMemoryState.commitVerified,hn,heq]
  simp [ok_bind,ensure_of]

end Window

/-- The chain of positions that a log has had, newest first, and its window over them. -/
structure Tracks (H : Hasher) (chain : List Position) (log : AppendOnlyStorage) : Prop where
  current : chain.head? = log.checkpoint.map fun cp => (cp, log.state)
  fresh : log.checkpoint = none → log.state = InMemoryState.new
  falling : chain.Pairwise fun a b => b.1.height < a.1.height
  rooted : ∀ p ∈ chain, p.1.stateRoot = p.2.root H
  covers : Covers chain log.history.entries.reverse
  within : log.history.Within

section Memory

variable {H : Hasher} {chain : List Position} {log log' : AppendOnlyStorage}

lemma Tracks.congr (h : Tracks H chain log) (hc : log'.checkpoint = log.checkpoint)
    (hs : log'.state = log.state) (hh : log'.history = log.history) :
    Tracks H chain log' :=
  ⟨by rw [hc,hs]; exact h.current,by rw [hc,hs]; exact h.fresh,h.falling,h.rooted,hh ▸ h.covers,
    hh ▸ h.within⟩

lemma Tracks.truncate (h : Tracks H chain log) (fl : UInt64)
    (hc : log'.checkpoint = log.checkpoint) (hs : log'.state = log.state)
    (hh : log'.history = log.history.truncateBelow fl) : Tracks H chain log' := by
  refine ⟨by rw [hc,hs]; exact h.current,by rw [hc,hs]; exact h.fresh, h.falling,h.rooted,?_,?_⟩
  · rw [hh]
    exact h.covers.take (List.reverse_prefix.mpr (StateHistory.dropBelow_suffix _ _ _ _))
  · rw [hh]
    exact h.within.truncateBelow fl

lemma tracks_unread (file : Nat) (ret : Option RetentionRecord) :
    Tracks H [] (unread H file ret) :=
  ⟨rfl,fun _ => rfl,.nil,fun _ hp => absurd hp not_mem_nil,.nil _,StateHistory.within_default⟩

lemma Tracks.same (h : Tracks H chain log) (h' : Tracks H chain log') :
    log'.checkpoint = log.checkpoint ∧ log'.state = log.state := by
  have heq := h'.current.symm.trans h.current
  cases hc : log.checkpoint with
  | none =>
    rw [hc,Option.map_none,Option.map_eq_none_iff] at heq
    exact ⟨heq,(h'.fresh heq).trans (h.fresh hc).symm⟩
  | some cp =>
    rw [hc,Option.map_some] at heq
    obtain ⟨cp',hc',hp⟩ := Option.map_eq_some_iff.mp heq
    obtain ⟨rfl,hs⟩ := Prod.mk.inj hp
    exact ⟨hc',hs⟩

variable {cp : Checkpoint} {state : InMemoryState} {α : Type} {s : LogState}

lemma Tracks.installed (h : Tracks H chain log) (hn : log.checkpoint = none)
    (hr : cp.stateRoot = state.root H) :
    Tracks H ((cp,state) :: chain)
      { log with checkpoint := some cp, anchor := some cp, state } := by
  have hcu := h.current
  rw [hn,Option.map_none,head?_eq_none_iff] at hcu
  subst hcu
  have he : log.history.entries.reverse = [] := by
    have hc := h.covers
    generalize log.history.entries.reverse = es at hc
    cases hc
    rfl
  refine ⟨rfl,nofun,pairwise_singleton _ _,fun p hp => ?_,?_,h.within⟩
  · rw [mem_singleton.mp hp]
    exact hr
  · rw [he]
    exact .nil _

lemma key_of_capture {pre after : Checkpoint} {next : InMemoryState} {diffs : List StateDiff}
    {undo : Undo} {par : Hash256} (hn : state.prepare H par diffs = .ok next)
    (h : capture pre after state diffs = some undo) :
    ∀ c ∈ undo.diff.changes, c.key.length ≤ maxStateKeyBytes := by
  obtain ⟨rfl,-⟩ := InMemoryState.prepare_ok hn
  have hf := InMemoryState.prepare_iff_fits.mp ⟨next,hn⟩
  rw [capture,Option.bind_eq_bind,Option.bind_eq_some_iff] at h
  obtain ⟨acc,ha,h⟩ := h
  cases h
  refine foldlM_captureChange_preserves
    (P := fun acc => ∀ c ∈ acc.changes, c.key.length ≤ maxStateKeyBytes)
    (fun _ hc => absurd hc not_mem_nil) ha fun acc acc' change hm ha h => ?_
  rcases captureChange_eq_some h with ⟨-,rfl⟩ | ⟨bs,-,-,rfl⟩
  · exact ha
  · intro c hc
    rcases mem_append.mp hc with hc | hc
    · exact ha c hc
    · rw [mem_singleton.mp hc,key_previousChange]
      exact hf.keys change hm

lemma Tracks.committed (h : Tracks H chain log) {b : CommitBatch} {location : Location}
    (hb : prepareBatch H b log.checkpoint log.state = .ok (cp,state)) :
    Tracks H ((cp,state) :: chain) (log.committed H b cp state location) := by
  obtain ⟨-,-,hr,hm,hn⟩ := prepareBatch_ok hb
  obtain ⟨par,hpr⟩ : ∃ par, log.state.prepare H par b.stateDiffs = .ok state := by
    simp only [prepareBatch,bind_eq_ok,mapError_eq_ok,pure_ok_iff,Prod.mk.injEq] at hb
    obtain ⟨_,_,_,_,next,hpr,_,_,_,rfl⟩ := hb
    exact ⟨_,hpr⟩
  have hcu := h.current
  refine ⟨rfl,fun hno => ?_,pairwise_cons.mpr ⟨fun p hp => ?_,h.falling⟩,
    forall_mem_cons.mpr ⟨hr,h.rooted⟩,?_,(h.within.record _ _ _ _).2⟩
  · cases hno
  · -- every position before is at most as high as the last one
    cases hch : log.checkpoint with
    | none =>
      rw [hch,Option.map_none,head?_eq_none_iff] at hcu
      subst hcu
      cases hp
    | some c =>
      rw [hch,Option.map_some] at hcu
      obtain ⟨rest,rfl⟩ := head?_eq_some_iff.mp hcu
      have hs := hn c hch
      rw [UInt64.lt_iff_toNat_lt,hs]
      rcases mem_cons.mp hp with rfl | hp
      · exact Nat.lt_succ_self _
      · have hl := (pairwise_cons.mp h.falling).1 p hp
        rw [UInt64.lt_iff_toNat_lt] at hl
        exact Nat.lt_succ_of_lt hl
  · dsimp only [AppendOnlyStorage.committed]
    cases hch : log.checkpoint with
    | none => exact .nil _
    | some c =>
      rw [hch,Option.map_some] at hcu
      obtain ⟨rest,rfl⟩ := head?_eq_some_iff.mp hcu
      simp only [StateHistory.record]
      cases hc : capture c cp log.state b.stateDiffs with
      | none => exact .nil _
      | some undo =>
        obtain ⟨hf,ht,hu⟩ := capture_ok hc
        refine Covers.take (.cons (p := (c,log.state)) h.covers hf ht (hn c hch)
          (key_of_capture hpr hc) ?_)
          (List.reverse_prefix.mpr (StateHistory.evict_suffix _ _ _) |>.trans (by simp))
        rw [hm]
        exact hu

abbrev Tracking (H : Hasher) (chain : List Position) (s : LogState) :
    Prop := Tracks H chain s.2

lemma keeps_update {g : AppendOnlyStorage → AppendOnlyStorage}
    (hg : ∀ log, Tracks H chain log → Tracks H chain (g log)) :
    Maintains (Tracking H chain) (update g) := Maintains.modify fun s => hg s.2

lemma keeps_poison : Maintains (Tracking H chain) poison :=
  keeps_update fun _ h => h.congr rfl rfl rfl

lemma keeps_ready : Maintains (Tracking H chain) ready := .bind (.read _) fun _ => .give _

lemma keeps_poisonUnless (p : Prop) [Decidable p] :
    Maintains (Tracking H chain) (poisonUnless p) := by
  unfold poisonUnless
  split
  · exact .pure _
  · exact .bind keeps_poison fun _ => .fail _

lemma keeps_publishHead (endOffset : Nat) (tip : Hash256) :
    Maintains (Tracking H chain) (publishHead H endOffset tip) := by
  refine .bind (.outer _) fun _ => .bind (.outer _) fun _ => .bind (.attempt (.outer _)) fun x => ?_
  cases x with
  | ok => exact .pure _
  | error e => exact .bind keeps_poison fun _ => .fail _

lemma keeps_rollback (e : StorageError) : Maintains (Tracking H chain) (rollback e) := by
  refine .bind (.read _) fun log => ?_
  split
  · exact .fail _
  · refine .bind (.attempt (.outer _)) fun x => ?_
    cases x with
    | ok => exact .fail _
    | error e => exact .bind keeps_poison fun _ => .fail _

lemma keeps_append (pl : Bytes) : Maintains (Tracking H chain) (append H pl) := by
  refine .bind keeps_ready fun _ => .bind (.outer _) fun _ => .bind (.read _) fun log =>
    .bind (.outer _) fun _ => .bind (keeps_poisonUnless _) fun _ => .bind (.outer _) fun _ =>
    .bind (keeps_poisonUnless _) fun _ => .bind (.give _) fun _ => .bind (.attempt ?_) fun x => ?_
  · exact .bind (.outer _) fun _ => .bind (.outer _) fun _ => .bind (.outer _) fun _ =>
      keeps_publishHead _ _
  · cases x with
    | ok => exact .bind (keeps_update fun _ h => h.congr rfl rfl rfl) fun _ => .pure _
    | error e => exact keeps_rollback e

lemma keeps_publishReplacement (r : Replacement) (rec : RetentionRecord) (cp : Checkpoint)
    (fl : UInt64) :
    Maintains (Tracking H chain) (publishReplacement r rec cp fl) := by
  refine .bind (keeps_update fun _ h => h.congr rfl rfl rfl) fun _ =>
    .bind (.attempt (.outer _)) fun x => ?_
  cases x with
  | ok => exact keeps_update fun _ h => h.truncate fl rfl rfl rfl
  | error e => exact .bind keeps_poison fun _ => .fail _

lemma keeps_compact (fl : UInt64) (budget : Nat) :
    Maintains (Tracking H chain) (compact H fl budget) := by
  refine .bind keeps_ready fun _ => .bind (.read _) fun log => .bind (.give _) fun _ =>
    .bind (.give _) fun _ => .bind (.give _) fun _ => ?_
  split
  · exact .pure _
  · refine .bind (.give _) fun _ => .bind (.give _) fun _ => .bind (.give _) fun _ =>
      .bind (.outer _) fun _ => .bind (.give _) fun _ => .bind (.outer _) fun _ =>
      .bind (.outer _) fun _ => .bind (.attempt (.outer _)) fun x => ?_
    cases x with
    | ok r => exact keeps_publishReplacement _ _ _ _
    | error e => exact .bind (.outer _) fun _ => .bind (.outer _) fun _ => .fail _

lemma keeps_evaluateRetention : Maintains (Tracking H chain) (evaluateRetention H) := by
  refine .bind (.read _) fun log => ?_
  cases log.dueFloor with
  | none => exact .pure _
  | some target =>
    refine .bind (.attempt (keeps_compact _ _)) fun x => ?_
    cases x with
    | ok => exact keeps_update fun _ h => h.congr rfl rfl rfl
    | error e => exact keeps_update fun _ h => h.congr rfl rfl rfl

def Grown (H : Hasher) (chain : List Position) (log : AppendOnlyStorage) : Prop :=
  Tracks H chain log ∨ ∃ p, Tracks H (p :: chain) log

def growing {α : Type} (H : Hasher) (chain : List Position) :
    Post LogState StorageError α :=
  ⟨fun _ s => Grown H chain s.2, fun _ s => Grown H chain s.2, fun _ => True⟩

lemma Maintains.grows {m : LogIo α} (hm : Maintains (Tracking H chain) m)
    (hs : Tracks H chain s.2) : Meets (fun _ => True) m s (growing H chain) :=
  (hm.meets hs fun _ => trivial).mono (fun _ _ => .inl) (fun _ _ => .inl) fun _ _ => trivial

lemma Maintains.thenGrows {β : Type} {m : LogIo α} {f : α → LogIo β}
    (hm : Maintains (Tracking H chain) m) (hs : Tracks H chain s.2)
    (hf : ∀ a s, Tracks H chain s.2 → Meets (fun _ => True) (f a) s (growing H chain)) :
    Meets (fun _ => True) (m >>= f) s (growing H chain) :=
  Meets.bind ((hm.meets hs fun _ => trivial).mono (fun _ _ => id) (fun _ _ => .inl) fun _ _ => trivial) hf

lemma grows_give {β : Type} {x : Except StorageError α} {f : α → LogIo β}
    (hs : Tracks H chain s.2)
    (hf : ∀ a, x = .ok a → Meets (fun _ => True) (f a) s (growing H chain)) :
    Meets (fun _ => True) (Io.give x >>= f) s (growing H chain) := by
  refine Meets.bind (R := fun a t => x = .ok a ∧ t = s) (Meets.give ?_ fun _ _ => .inl hs) ?_
  · exact fun a ha => ⟨ha,rfl⟩
  · rintro a _ ⟨ha,rfl⟩
    exact hf a ha

lemma grows_installAnchor (hs : Tracks H chain s.2) (cp : Checkpoint) (state : InMemoryState) :
    Meets (fun _ => True) (installAnchor H cp state) s (growing H chain) := by
  refine Maintains.thenGrows keeps_ready hs fun _ s hs => meets_self ?_
  refine grows_give hs fun _ hn => grows_give hs fun _ hr => grows_give hs fun pl _ => ?_
  refine Maintains.thenGrows (keeps_append pl) hs fun _ t ht => meets_update (Meets.pure ?_)
  refine .inr ⟨_,ht.installed ?_ (ensure_eq_ok.mp hr).2⟩
  rw [(hs.same ht).1]
  exact Option.isNone_iff_eq_none.mp (ensure_eq_ok.mp hn)

lemma grows_commit (hs : Tracks H chain s.2) (b : CommitBatch) :
    Meets (fun _ => True) (commit H b) s (growing H chain) := by
  refine Maintains.thenGrows keeps_ready hs fun _ s hs => grows_give hs fun pl _ => meets_self ?_
  refine grows_give hs fun ⟨cp,state⟩ hb => ?_
  refine Maintains.thenGrows (keeps_append pl) hs fun location t ht => meets_update ?_
  rw [← (hs.same ht).1,← (hs.same ht).2] at hb
  have hc : Tracks H ((cp,state) :: chain) (t.2.committed H b cp state location) := ht.committed hb
  refine Meets.bind (R := fun _ s => Tracks H ((cp,state) :: chain) s.2) ?_ fun _ _ h =>
    Meets.pure (.inr ⟨_,h⟩)
  exact (keeps_evaluateRetention.meets hc fun _ => trivial).mono (fun _ _ => id)
    (fun _ _ h => .inr ⟨_,h⟩) fun _ _ => trivial

lemma grows_call (hs : Tracks H chain s.2) (c : Call) :
    Meets (fun _ => True) (c.perform H) s (growing H chain) := by
  cases c with
  | installAnchor cp state =>
    exact Meets.bind (R := fun _ (s : LogState) => Grown H chain s.2)
      (grows_installAnchor hs cp state) fun _ _ h => Meets.pure h
  | commit b =>
    exact Meets.bind (R := fun _ (s : LogState) => Grown H chain s.2)
      (grows_commit hs b) fun _ _ h => Meets.pure h
  | prune pre =>
    refine Maintains.grows (.bind keeps_ready fun _ => .bind (.read _) fun log => ?_) hs
    split
    · exact .pure _
    · exact keeps_compact _ _
  | setRetentionPolicy policy =>
    exact Maintains.grows (keeps_update fun _ h => h.congr rfl rfl rfl) hs

def AppendOnlyStorage.covered (log : AppendOnlyStorage) (height : UInt64) : Bool :=
  match log.checkpoint, log.historyFloor with
  | some head, some floor => floor ≤ height ∧ height ≤ head.height
  | _, _ => false

lemma Tracks.contiguous (h : Tracks H chain log) (hc : log.checkpoint = some cp) :
    log.history.entries.length ≤ cp.height.toNat ∧ log.history.entries.map (·.before.height.toNat) =
        range' (cp.height.toNat - log.history.entries.length) log.history.entries.length := by
  have hcu := h.current
  rw [hc,Option.map_some] at hcu
  obtain ⟨rest,rfl⟩ := head?_eq_some_iff.mp hcu
  obtain ⟨hl,hh⟩ := h.covers.heights
  rw [length_reverse] at hl hh
  rw [map_reverse] at hh
  exact ⟨hl,reverse_injective hh⟩

lemma Tracks.entry (h : Tracks H chain log) {height : UInt64}
    (hc : log.checkpoint = some cp) (hlo : log.history.floor cp.height ≤ height)
    (hhi : height < cp.height) : ∃ u ∈ log.history.entries.reverse, u.before.height = height := by
  obtain ⟨hl,hh⟩ := h.contiguous hc
  unfold StateHistory.floor at hlo
  cases he : log.history.entries with
  | nil =>
    rw [he] at hlo
    exact absurd hhi (UInt64.not_lt.mpr hlo)
  | cons u rest =>
    rw [he] at hlo hh hl
    dsimp only at hlo
    have hf : u.before.height.toNat = cp.height.toNat - (rest.length + 1) := by
      rw [length_cons,range'_succ,map_cons] at hh
      exact (cons.inj hh).1
    have hm : height.toNat ∈ (u :: rest).map (·.before.height.toNat) := by
      rw [UInt64.le_iff_toNat_le] at hlo
      rw [UInt64.lt_iff_toNat_lt] at hhi
      rw [hh,mem_range'_1]
      rw [length_cons] at hl ⊢
      omega
    obtain ⟨v,hv,heq⟩ := mem_map.mp hm
    exact ⟨v,mem_reverse.mpr hv,UInt64.toNat.inj heq⟩

lemma Tracks.read (h : Tracks H chain log) (height : UInt64) :
    (log.covered height = true ∧ ∃ p ∈ chain, p.1.height = height ∧
        log.history.read H height log.checkpoint log.state = .ok (some p)) ∨
      log.covered height = false ∧
        log.history.read H height log.checkpoint log.state = .ok none := by
  have hcu := h.current
  cases hc : log.checkpoint with
  | none => exact .inr ⟨by simp [covered,hc],rfl⟩
  | some head =>
    rw [hc,Option.map_some] at hcu
    obtain ⟨rest,rfl⟩ := head?_eq_some_iff.mp hcu
    simp only [covered,historyFloor,hc,Option.map_some,StateHistory.read]
    by_cases ho : head.height < height ∨ height < log.history.floor head.height
    · rw [if_pos ho]
      refine .inr ⟨decide_eq_false ?_,rfl⟩
      rintro ⟨hl,hhi⟩
      rcases ho with ho | ho
      · exact absurd ho (UInt64.not_lt.mpr hhi)
      · exact absurd ho (UInt64.not_lt.mpr hl)
    · rw [if_neg ho,not_or,UInt64.not_lt,UInt64.not_lt] at *
      refine .inl ⟨decide_eq_true ho.symm,?_⟩
      by_cases hh : height = head.height
      · rw [if_pos hh]
        exact ⟨_,mem_cons_self,hh.symm,rfl⟩
      · rw [if_neg hh]
        have hf := h.entry hc ho.2 (UInt64.lt_of_le_of_ne ho.1 hh)
        have he : Values.Short .empty := fun k hk => absurd rfl hk
        obtain ⟨p,hp,hhe,vs,hs,hb,hv⟩ := h.covers.readBack he (fun k => rfl) hf
        refine ⟨p,hp,hhe,?_⟩
        rw [hb,ok_bind,h.rooted p hp,commitVerified_restoring hs hv]
        rfl

lemma Tracks.unique (h : Tracks H chain log) {p q : Position} (hp : p ∈ chain) (hq : q ∈ chain)
    (heq : p.1.height = q.1.height) : p = q := by
  have hn : (chain.map (·.1.height)).Nodup :=
    pairwise_map.mpr (h.falling.imp fun hl => (UInt64.ne_of_lt hl).symm)
  exact inj_on_of_nodup_map hn hp hq heq

lemma readStateAt_eq (height : UInt64) (disk : LogDisk) (ts : List Turn) :
    (readStateAt H height ts (disk,log)).1.1 = if log.poisoned then .error .durabilityUnknown
      else match log.history.read H height log.checkpoint log.state with
        | .ok fd => .ok fd
        | .error e => .error e := by
  cases hp : log.poisoned with
  | true => simp [readStateAt,ready,self,Io.read,bind,Io.bind,hp,Io.give,ensure,Io.fail]
  | false =>
    simp only [readStateAt,ready,self,Io.read,bind,Io.bind,hp,ensure,Io.give,if_true,pure]
    cases log.history.read H height log.checkpoint log.state <;> rfl

end Memory

def World.position (w : World) : Option Position :=
  w.log.bind fun log => log.checkpoint.map fun cp => (cp, log.state)

def World.trail (H : Hasher) : World → List Step → List Position
  | _, [] => []
  | w, s :: rest => (w.step H s).position.toList ++ World.trail H (w.step H s) rest

section Runs

variable {H : Hasher} {w : World} {seen : List Position}

def Tracked (H : Hasher) (w : World) (seen : List Position) : Prop :=
  ∀ log, w.log = some log → ∃ chain, Tracks H chain log ∧ ∀ p, p ∈ chain ↔ p ∈ seen

lemma Tracked.call (h : Tracked H w seen) (c : Call) (ts : List Turn) :
    Tracked H (w.call H c ts) (seen ++ (w.call H c ts).position.toList) := by
  cases hl : w.log with
  | none =>
    rw [World.call_none hl]
    intro log hl'
    rw [hl] at hl'
    cases hl'
  | some log =>
    obtain ⟨chain,ht,hse⟩ := h log hl
    have hg : ∀ log', Grown H chain log' → ∃ chain', Tracks H chain' log' ∧
        ∀ p, p ∈ chain' ↔ p ∈ seen ++ (log'.checkpoint.map fun cp => (cp,log'.state)).toList := by
      intro log' hl'
      rcases hl' with h' | ⟨q,h'⟩
      · refine ⟨chain,h',fun p => ?_⟩
        rw [← h'.current,mem_append,← hse,Option.mem_toList]
        exact ⟨.inl,fun hp => hp.elim id mem_of_mem_head?⟩
      · refine ⟨_,h',fun p => ?_⟩
        rw [← h'.current,mem_append,← hse]
        simp [or_comm,eq_comm]
    refine World.call_of (I := fun w => Tracked H w (seen ++ w.position.toList)) hl
      (fun _ _ => trivial) (grows_call ht c) ?_ ?_ ?_
    · intro s hs log' hl'
      cases hl'
      exact hg s.2 hs
    · intro e s hs log' hl'
      cases hl'
      exact hg s.2 hs
    · intro s _ log' hl'
      cases hl'

lemma Tracked.run (h : Tracked H w seen) (calls : List (Call × List Turn)) :
    Tracked H (w.run H (calls.map fun c => .call c.1 c.2))
      (seen ++ w.trail H (calls.map fun c => .call c.1 c.2)) := by
  induction calls generalizing w seen with
  | nil =>
    rw [map_nil,World.trail,append_nil]
    exact h
  | cons c rest ih =>
    rw [map_cons,World.trail,← append_assoc]
    exact ih (h.call c.1 c.2)

end Runs

/-- What may be relied on of the index of a log at a checkpoint. -/
structure StateHistory.Sound (h : StateHistory) (head : Option Checkpoint) : Prop where
  limits : ¬Exceeds h.entries.length h.bytes h.changes
  contiguous : ∀ cp ∈ head, h.entries.length ≤ cp.height.toNat ∧
    h.entries.map (·.before.height.toNat) =
      range' (cp.height.toNat - h.entries.length) h.entries.length
  records : ∀ before after state diffs,
    h.checkedRecord before after state diffs = some (h.record before after state diffs)
  truncates : ∀ floor,
    checkedDropBelow floor h.entries h.bytes h.changes = some (h.truncateBelow floor)

lemma Tracks.sound {H : Hasher} {chain : List Position} {log : AppendOnlyStorage}
    (h : Tracks H chain log) : log.history.Sound log.checkpoint where
  limits := h.within.limits
  contiguous := fun _ hc => h.contiguous hc
  records := fun pre after st diffs => (h.within.record pre after st diffs).1
  truncates := fun fl => (StateHistory.checkedDropBelow_eq fl h.within).1

/-- Reading the state at a height gives the position that the log had there, wherever the index
covers it, and nothing elsewhere. A log that was poisoned refuses every read. -/
theorem read_state_at_exact (H : Hasher) (turns : List Turn) (d : LogDisk)
    (log : AppendOnlyStorage) (hfirst : (openLog H turns Disk.empty).1 = (.ok log, d))
    (calls : List (Call × List Turn)) (live : AppendOnlyStorage)
    (hlog : ((World.opened d log).run H (calls.map fun c => .call c.1 c.2)).log = some live) :
    (∀ height disk turns', (readStateAt H height turns' (disk, live)).1.1 =
      if live.poisoned then .error .durabilityUnknown
      else .ok (if live.covered height then
          ((World.opened d log).trail H (calls.map fun c => .call c.1 c.2)).find?
            fun p => p.1.height = height
        else none)) ∧
    (∀ height, live.covered height → ∃ p ∈ (World.opened d log).trail H
      (calls.map fun c => .call c.1 c.2), p.1.height = height) ∧
    live.history.Sound live.checkpoint := by
  obtain ⟨rfl,rfl⟩ := first_open hfirst
  have hst : Tracked H (World.fresh H) [] := by
    intro log' hl'
    cases hl'
    exact ⟨[],tracks_unread 0 none,fun p => Iff.rfl⟩
  obtain ⟨chain,ht,hs⟩ := hst.run calls live hlog
  rw [nil_append] at hs
  refine ⟨fun height disk turns' => ?_,fun height hc => ?_,ht.sound⟩
  · rw [readStateAt_eq]
    rcases ht.read height with ⟨hc,p,hp,hh,hr⟩ | ⟨hn,hr⟩
    · have hf : ((World.fresh H).trail H (calls.map fun c => .call c.1 c.2)).find?
          (fun p => p.1.height = height) = some p := by
        cases hfo : find? (fun p : Position => decide (p.1.height = height))
            ((World.fresh H).trail H
              (calls.map fun c => .call c.1 c.2)) with
        | none => exact absurd hh (by simpa using find?_eq_none.mp hfo p ((hs p).mp hp))
        | some q =>
          have hq := (hs q).mpr (mem_of_find?_eq_some hfo)
          have hh' : q.1.height = height := by simpa using find?_some hfo
          rw [ht.unique hq hp (hh'.trans hh.symm)]
      rw [hr,hc,hf]
      rfl
    · rw [hr,hn]
      rfl
  · rcases ht.read height with ⟨-,p,hp,hh,-⟩ | ⟨hn,-⟩
    · exact ⟨p,(hs p).mp hp,hh⟩
    · rw [hn] at hc
      cases hc

/-- A block in the middle of a chain that writes, overwrites and deletes, and the first one, which
a compaction removed. -/
theorem read_state_at_exact_churn : ∃ live, Churn.world.log = some live ∧
    (readStateAt residueHash 0 [] (Churn.world.disk, live)).1.1 = .ok none ∧
    (readStateAt residueHash 4 [] (Churn.world.disk, live)).1.1 =
      .ok (((World.fresh residueHash).trail residueHash Churn.steps).find? (·.1.height = 4)) ∧
    (∃ p ∈ (World.fresh residueHash).trail residueHash Churn.steps, p.1.height = 4) ∧
      live.history.Sound live.checkpoint := by
  obtain ⟨live,hl,hp,-,hf,hh,-⟩ := Churn.compacted
  obtain ⟨head,hc,hh⟩ := Option.map_eq_some_iff.mp hh
  have hz : live.covered 0 = false := by simp [covered,hc,hf,hh]
  have hm : live.covered 4 = true := by simp [covered,hc,hf,hh]
  obtain ⟨hr,hfo,hs⟩ := read_state_at_exact residueHash [] (createdDisk residueHash)
    (unread residueHash 0 none) opened_empty Churn.calls live hl
  have hr' (height) := hr height Churn.world.disk []
  simp only [hp,Bool.false_eq_true,if_false] at hr'
  refine ⟨live,hl,?_,?_,hfo 4 hm,hs⟩
  · rw [hr',hz]
    rfl
  · rw [hr',hm]
    rfl

end Astrolune.Storage
