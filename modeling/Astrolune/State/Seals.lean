import Astrolune.State.Memory
import Astrolune.Lib.Run
import Astrolune.Types.Digest

namespace Astrolune.State
open Lib Codec List Option

structure Partition where
  base : Node
  remaining : Nat
  values : List (StateKey × Option Bytes)
  result : Option Node

namespace Partition

def writes (p : Partition) : Except StateError (List (StateKey × Bytes)) :=
  p.values.mapM fun slot => okOr .corrupt (slot.2.map fun value => (slot.1, value))

def setResult (p : Partition) : Except StateError Unit × Partition :=
  match p.writes with
  | .error e => (.error e, p)
  | .ok writes =>
    if p.result.isSome then (.error .corrupt, p)
    else (.ok (), { p with result := some (p.base.replace writes) })

/-- `OnceLock::set` of a slot, and the seal after the last one. An index outside would panic. -/
def fill (p : Partition) (slot : Nat) (value : Bytes) : Except StateError Unit × Partition :=
  match p.values[slot]? with
  | none => (.error .corrupt, p)
  | some (_, some _) => (.error .leaseViolation, p)
  | some (key, none) =>
    let filled := { p with values := p.values.set slot (key, some value),
                           remaining := p.remaining - 1 }
    if p.remaining = 1 then filled.setResult else (.ok (), filled)

end Partition

structure CommitSeals where
  parent : Hash256
  transactionRoot : Hash256
  partitions : OrderedMap StateKey Partition
  writers : OrderedMap StateKey (Nat × StateKey × Nat)

namespace CommitSeals

def recordChange (s : CommitSeals) (index : Nat) :
    StateChange → Except StateError Unit × CommitSeals
  | .delete _ => (.error .leaseViolation, s)
  | .put key value =>
    match s.writers.get key with
    | none => (.error .leaseViolation, s)
    | some (lastWriter, partitionKey, slot) =>
      if lastWriter < index ∨ maxStateValueBytes < value.length then (.error .leaseViolation, s)
      else if index ≠ lastWriter then (.ok (), s)
      else
        match s.partitions.get partitionKey with
        | none => (.error .corrupt, s)
        | some partition =>
          let (result, filled) := partition.fill slot value
          (result, { s with partitions := s.partitions.insert partitionKey filled })

def recordChanges (index : Nat) : List StateChange → CommitSeals → Except StateError Unit × CommitSeals
  | [], s => (.ok (), s)
  | change :: rest, s =>
    match s.recordChange index change with
    | (.error e, next) => (.error e, next)
    | (.ok (), next) => recordChanges index rest next

def record (s : CommitSeals) (index : Nat) (diff : StateDiff) : Except StateError Unit × CommitSeals :=
  recordChanges index diff.changes s

def addPartition (s : CommitSeals) (base : Node) (keys : List (StateKey × Nat)) : CommitSeals :=
  { s with
    writers := keys.zipIdx.foldl (fun writers e =>
      writers.insert e.1.1 (e.1.2, base.lastKey, e.2)) s.writers
    partitions := s.partitions.insert base.lastKey
      { base, remaining := keys.length, values := keys.map fun e => (e.1, none), result := none } }

def partition : Node → List (StateKey × Nat) → CommitSeals → CommitSeals
  | .leaf last value, keys, s => if keys = [] then s else s.addPartition (.leaf last value) keys
  | .branch left right, keys, s =>
    if keys = [] then s
    else if (Node.branch left right).count ≤ 64 then s.addPartition (.branch left right) keys
    else partition right (keys.dropWhile (·.1 ≤ left.lastKey))
      (partition left (keys.takeWhile (·.1 ≤ left.lastKey)) s)

/-- A recorded subtree, if it was made from this node by these very writes. The comparison of
pointers is `same`. -/
def reuse (same : Node → Node → Bool) (s : CommitSeals) (node : Node)
    (writes : List (StateKey × Bytes)) : Option Node :=
  match s.partitions.get node.lastKey with
  | none => none
  | some partition =>
    if same node partition.base = true ∧ partition.values.length = writes.length ∧
        (partition.values.zip writes).all (fun e => e.1.1 = e.2.1 ∧ e.1.2 = some e.2.2) = true then
      partition.result
    else none

end CommitSeals

/-- `replace_sealed`: a subtree that can be reused is, and the others are replaced. -/
def Node.replaceSealed (reuse : Node → List (StateKey × Bytes) → Option Node) :
    Node → List (StateKey × Bytes) → Node
  | leaf key value, [] => leaf key value
  | leaf key value, write :: rest => (reuse (leaf key value) (write :: rest)).getD (leaf key write.2)
  | branch left right, writes =>
    if writes = [] then branch left right
    else (reuse (branch left right) writes).getD
      (branch (left.replaceSealed reuse (left.split writes).1)
        (right.replaceSealed reuse (left.split writes).2))

namespace Tree

def lastWriters (t : Tree) (last : OrderedMap StateKey Nat) (e : List StateKey × Nat) :
    Option (OrderedMap StateKey Nat) := do
  if 2 < e.1.length then none
  else
    e.1.foldlM (fun last key => (t.get key).map fun _ => last.insert key e.2) last

def planSeals (H : Hasher) (t : Tree) (transactionRoot : Hash256)
    (writes : List (List StateKey)) : Option CommitSeals := do
  if 8192 < writes.length then none
  else
    let last ← writes.zipIdx.foldlM t.lastWriters .empty
    if last.entries.length < 512 then none
    else
      let root ← t.root
      return CommitSeals.partition root last.entries
        { parent := t.hash H, transactionRoot, partitions := .empty, writers := .empty }

def prepareSealed (t : Tree) (diffs : List StateDiff)
    (reuse : Node → List (StateKey × Bytes) → Option Node) : Except StateError (Option Tree) := do
  let planned ← t.planWrites (diffs.flatMap StateDiff.changes)
    (headerBytes + t.root.elim 0 Node.bytes) .empty
  return planned.map fun writes => ⟨t.root.map (·.replaceSealed reuse writes.entries)⟩

end Tree

/-- The tree that `prepare_sealed` returns; its root is the hash of it. Seals of another parent are
not looked at. -/
def InMemoryState.prepareSealed (H : Hasher) (same : Node → Node → Bool)
    (s : InMemoryState) (parent : Hash256) (diffs : List StateDiff) (seals : Option CommitSeals) :
    Except StateError Tree :=
  if parent = s.root H then do
    let prepared ← match seals.filter (·.parent = parent) with
      | some seals => s.data.prepareSealed diffs (seals.reuse same)
      | none => s.data.prepare diffs
    match prepared with
    | some next => return next
    | none => return Tree.fromMap (← stage s.data.toMap diffs)
  else .error .staleSnapshot

def Partition.Sealed (p : Partition) : Prop :=
  ∀ result, p.result = some result →
    ∃ writes, p.values = writes.map (fun w => (w.1, some w.2)) ∧ result = p.base.replace writes

def CommitSeals.Sealed (s : CommitSeals) : Prop :=
  ∀ key partition, s.partitions.get key = some partition → partition.Sealed

namespace Partition

variable {p : Partition} {slot : Nat} {value : Bytes}

lemma writes_ok {ws : List (StateKey × Bytes)} (h : p.writes = .ok ws) :
    p.values = ws.map fun w => (w.1,some w.2) := by
  have ha := forall₂_of_mapM h
  clear h
  generalize p.values = values at ha ⊢
  induction ha with
  | nil => rfl
  | cons hs _ ih =>
    obtain ⟨value,hv,rfl⟩ := map_eq_some_iff.mp (okOr_eq_ok.mp hs)
    rw [map_cons,← ih,← hv]

lemma Sealed.setResult (h : p.Sealed) : p.setResult.2.Sealed := by
  unfold Partition.setResult
  split
  · exact h
  · next ws hw =>
    split
    · exact h
    · rintro res hr
      cases hr
      exact ⟨ws,writes_ok hw,rfl⟩

lemma Sealed.fill (h : p.Sealed) : (p.fill slot value).2.Sealed := by
  unfold Partition.fill
  split
  · exact h
  · exact h
  · next key hs =>
    have hn : p.result = none := by
      cases hr : p.result with
      | none => rfl
      | some res =>
        obtain ⟨ws,hv,_⟩ := h res hr
        rw [hv,getElem?_map] at hs
        obtain ⟨w,_,hw⟩ := map_eq_some_iff.mp hs
        cases hw
    have hf : Sealed { p with values := p.values.set slot (key,some value),
                                   remaining := p.remaining - 1 } := by
      intro res hr
      rw [hn] at hr
      cases hr
    split
    · exact hf.setResult
    · exact hf

end Partition

namespace CommitSeals

variable {s : CommitSeals} {same : Node → Node → Bool}

lemma Sealed.recordChange (h : s.Sealed) (index : Nat) (change : StateChange) :
    (s.recordChange index change).2.Sealed := by
  unfold CommitSeals.recordChange
  split
  · exact h
  · split
    · exact h
    · split
      · exact h
      · split
        · exact h
        · split
          · exact h
          · next partition hp =>
            intro other fd hf
            rw [OrderedMap.get_insert] at hf
            split at hf
            · cases hf
              exact (h _ partition hp).fill
            · exact h other fd hf

lemma Sealed.recordChanges (index : Nat) (cs : List StateChange) (h : s.Sealed) :
    (CommitSeals.recordChanges index cs s).2.Sealed := by
  induction cs generalizing s with
  | nil => exact h
  | cons change rest ih =>
    have hn := h.recordChange index change
    rw [CommitSeals.recordChanges]
    split
    · next hr =>
      rw [hr] at hn
      exact hn
    · next hr =>
      rw [hr] at hn
      exact ih hn

lemma Sealed.addPartition (h : s.Sealed) (base : Node) (keys : List (StateKey × Nat)) :
    (s.addPartition base keys).Sealed := by
  intro key partition hp
  rw [CommitSeals.addPartition,OrderedMap.get_insert] at hp
  split at hp
  · cases hp
    exact fun res hr => by cases hr
  · exact h key partition hp

variable {node : Node} {ws : List (StateKey × Bytes)}

lemma Sealed.partition {keys : List (StateKey × Nat)} (h : s.Sealed) :
    (CommitSeals.partition node keys s).Sealed := by
  induction node generalizing keys s with
  | leaf last value =>
    rw [CommitSeals.partition]
    split
    · exact h
    · exact h.addPartition _ _
  | branch left right ihLeft ihRight =>
    rw [CommitSeals.partition]
    split
    · exact h
    · split
      · exact h.addPartition _ _
      · exact ihRight (ihLeft h)

lemma sealed_of_planSeals {H : Hasher} {t : Tree} {transactionRoot : Hash256}
    {ws : List (List StateKey)} (h : t.planSeals H transactionRoot ws = some s) :
    s.Sealed := by
  simp only [Tree.planSeals] at h
  split at h
  · cases h
  · obtain ⟨last,_,h⟩ := bind_eq_some_iff.mp h
    split at h
    · cases h
    · obtain ⟨root,_,h⟩ := bind_eq_some_iff.mp h
      cases h
      exact Sealed.partition fun key partition hp => by cases hp

lemma eq_of_matching {vs : List (StateKey × Option Bytes)}
    (hl : vs.length = ws.length)
    (ha : (vs.zip ws).all (fun e => e.1.1 = e.2.1 ∧ e.1.2 = some e.2.2) = true) :
    vs = ws.map fun w => (w.1,some w.2) := by
  induction vs generalizing ws with
  | nil => rw [length_eq_zero_iff.mp hl.symm,map_nil]
  | cons slot rest ih =>
    cases ws with
    | nil => cases hl
    | cons w others =>
      rw [zip_cons_cons,all_cons,Bool.and_eq_true,decide_eq_true_eq] at ha
      rw [map_cons,← ih (Nat.succ.inj hl) ha.2,← ha.1.1,← ha.1.2]

lemma Sealed.reuse_eq (h : s.Sealed) (hs : ∀ a b, same a b = true → a = b) {fd : Node}
    (hf : s.reuse same node ws = some fd) :
    fd = node.replace ws := by
  unfold CommitSeals.reuse at hf
  split at hf
  · cases hf
  · next partition hp =>
    split at hf
    · next hm =>
      obtain ⟨hb,hl,hal⟩ := hm
      obtain ⟨recorded,hv,rfl⟩ := h _ partition hp fd hf
      rw [eq_of_matching hl hal] at hv
      have hw : ws = recorded := map_injective_iff.mpr
        (fun a b ha => Prod.ext (Prod.mk.inj ha).1 (some.inj (Prod.mk.inj ha).2)) hv
      rw [hs node _ hb,hw]
    · cases hf

end CommitSeals

lemma Node.replaceSealed_eq {reuse : Node → List (StateKey × Bytes) → Option Node}
    (h : ∀ node ws fd, reuse node ws = some fd → fd = node.replace ws)
    (node : Node) (ws : List (StateKey × Bytes)) :
    node.replaceSealed reuse ws = node.replace ws := by
  have hgetD : ∀ node ws, (reuse node ws).getD (node.replace ws) = node.replace ws := by
    intro node ws
    cases hr : reuse node ws with
    | none => rfl
    | some fd => exact h node ws fd hr
  induction node generalizing ws with
  | leaf key value =>
    cases ws with
    | nil => rfl
    | cons write rest => exact hgetD (leaf key value) (write :: rest)
  | branch left right ihLeft ihRight =>
    have hno := hgetD (branch left right) ws
    rw [Node.replaceSealed,ihLeft,ihRight]
    rw [Node.replace] at hno ⊢
    split
    · rfl
    · next hn =>
      rw [if_neg hn] at hno
      exact hno

lemma InMemoryState.prepareSealed_none (H : Hasher) (same : Node → Node → Bool)
    (s : InMemoryState) (par : Hash256) (diffs : List StateDiff) :
    s.prepareSealed H same par diffs none = (s.prepare H par diffs).map InMemoryState.data := by
  unfold InMemoryState.prepareSealed InMemoryState.prepare
  split
  · change s.data.transition diffs = _
    split
    · next e he => exact he
    · next data hd => exact hd
  · rfl

def CommitSeals.recorded (s : CommitSeals) (calls : List (Nat × StateDiff)) : CommitSeals :=
  runs (fun s call => (s.record call.1 call.2).2) s calls

lemma CommitSeals.Sealed.recorded {s : CommitSeals} (h : s.Sealed) (calls : List (Nat × StateDiff)) :
    (s.recorded calls).Sealed :=
  @runs_invariant _ _ _ CommitSeals.Sealed (fun _ => True)
    (fun _ call _ hs => hs.recordChanges call.1 call.2.changes) _ _ (fun _ _ => trivial) h

/-- Seals never change what is prepared, whatever was recorded in them and wherever they were
planned. -/
theorem seals_transparent (H : Hasher) (same : Node → Node → Bool)
    (hsame : ∀ a b, same a b = true → a = b) (planned : InMemoryState) (transactionRoot : Hash256)
    (writes : List (List StateKey)) (seals : CommitSeals)
    (hplan : planned.data.planSeals H transactionRoot writes = some seals)
    (calls : List (Nat × StateDiff)) (s : InMemoryState) (parent : Hash256) (diffs : List StateDiff) :
    s.prepareSealed H same parent diffs (some (seals.recorded calls)) =
      (s.prepare H parent diffs).map InMemoryState.data := by
  have hs := (CommitSeals.sealed_of_planSeals hplan).recorded calls
  have hp : s.data.prepareSealed diffs ((seals.recorded calls).reuse same) =
      s.data.prepare diffs := by
    simp only [Tree.prepareSealed,Tree.prepare,
      Node.replaceSealed_eq fun _ _ _ hfo => hs.reuse_eq hsame hfo]
  have hc : s.prepareSealed H same parent diffs (some (seals.recorded calls)) =
      s.prepareSealed H same parent diffs none := by
    unfold InMemoryState.prepareSealed
    rw [filter_none]
    split
    · cases hf : (some (seals.recorded calls)).filter (·.parent = parent) with
      | none => rfl
      | some found =>
        obtain ⟨hso,_⟩ := filter_eq_some_iff.mp hf
        cases hso
        simp only [hp]
    · rfl
  rw [hc,InMemoryState.prepareSealed_none]

namespace FiveHundredKeys

def keys : List StateKey :=
  (range 574).reverse.map fun n => [UInt8.ofNat (n / 256), UInt8.ofNat n]

def entries : StateMap := keys.foldl (fun m key => m.insert key []) .empty

set_option maxRecDepth 8000 in
lemma bounded_entries : Bounded entries := by
  have ha : entries.entries.length ≤ maxStateEntries ∧
      (∀ e ∈ entries.entries, e.1.length ≤ maxStateKeyBytes ∧ e.2.length ≤ maxStateValueBytes) ∧
      encodedSize entries ≤ maxSnapshotBytes := by decide +kernel
  exact ⟨ha.1,fun e he => (ha.2.1 e he).1,fun e he => (ha.2.1 e he).2,ha.2.2⟩

def state : InMemoryState := .ofMap entries bounded_entries

/-- As many writes as a plan needs, each by its own transaction. Only two of them fall into the lowest
partition. -/
def written : List StateKey := keys.take 512

def calls : List (Nat × StateDiff) := (written.zipIdx.drop 510).map fun e => (e.2, ⟨[.put e.1 [7]]⟩)

end FiveHundredKeys

open FiveHundredKeys in
/-- The subtree of the partition was recorded, and is reused. -/
theorem seals_transparent_five_hundred_keys :
    ∃ seals, state.data.planSeals residueHash Hash256.zero (written.map ([·])) = some seals ∧
      ((seals.recorded calls).partitions.get [0, 63]).any (·.result.isSome) = true ∧
      state.prepareSealed residueHash (fun a b => decide (a = b)) (state.root residueHash)
          (calls.map Prod.snd) (some (seals.recorded calls)) =
        (state.prepare residueHash (state.root residueHash) (calls.map Prod.snd)).map
          InMemoryState.data := by
  have hp : ((state.data.planSeals residueHash Hash256.zero (written.map ([·]))).any fun seals =>
      ((seals.recorded calls).partitions.get [0, 63]).any (·.result.isSome)) = true := by
    decide +kernel
  obtain ⟨seals,hs,ha⟩ := (Option.any_eq_true _ _).mp hp
  exact ⟨seals,hs,ha,seals_transparent _ _ (fun _ _ h => of_decide_eq_true h) _ _ _ _ hs _ _ _ _⟩

end Astrolune.State
