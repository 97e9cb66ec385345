import Astrolune.State.Proof

namespace Astrolune.State
open Lib Codec List

namespace Node

def position (key : StateKey) : Node → Nat → Except Nat Nat
  | leaf last _, index =>
    if key = last then .ok index else if key < last then .error index else .error (index + 1)
  | branch left right, index =>
    if key ≤ left.lastKey then left.position key index else right.position key (index + left.count)

def entryAt (H : Hasher) :
    Node → Nat → List Hash256 → StateKey × Bytes × List Hash256
  | leaf key value, _, siblings => (key, value, siblings.reverse)
  | branch left right, position, siblings =>
    if position < left.count then left.entryAt H position (siblings ++ [right.hash H])
    else right.entryAt H (position - left.count) (siblings ++ [left.hash H])

end Node

namespace Tree

def position (t : Tree) (key : StateKey) : Except Nat Nat :=
  match t.root with
  | none => .error 0
  | some n => n.position key 0

def entryProof (H : Hasher) (t : Tree) (index : Nat) : Option StateWitness :=
  if t.len ≤ index then none
  else
    t.root.map fun n =>
      let (key, value, siblings) := n.entryAt H index []
      { key, value
        proof := { index := UInt64.ofNat index, leafCount := UInt64.ofNat t.len, siblings } }

def prove (H : Hasher) (t : Tree) (key : StateKey) : Option StateProof :=
  match t.position key with
  | .error _ => none
  | .ok index => (t.entryProof H index).map (·.proof)

def entryBefore (H : Hasher) (t : Tree) : Nat → Option StateWitness
  | 0 => none
  | index+1 => t.entryProof H index

def proveAbsence (H : Hasher) (t : Tree) (key : StateKey) :
    Except StateError (Option StateAbsenceProof) := do
  ensure .limitExceeded (key.length ≤ maxStateKeyBytes)
  match t.position key with
  | .ok _ => return none
  | .error index =>
    return some { lower := t.entryBefore H index, upper := t.entryProof H index }

end Tree

def StateValueProof.create (H : Hasher) (s : InMemoryState) (key : StateKey) :
    Except StateError StateValueProof := do
  ensure .limitExceeded (key.length ≤ maxStateKeyBytes)
  match s.get key with
  | some value => do
    let proof ← okOr .corrupt (s.data.prove H key)
    return .present { key, value, proof }
  | none => do
    let found ← s.data.proveAbsence H key
    let proof ← okOr .corrupt found
    return .absent proof

def rank (key : StateKey) (entries : List (StateKey × Bytes)) : Nat :=
  entries.countP (·.1 < key)

lemma rank_append (key : StateKey) (a b : List (StateKey × Bytes)) :
    rank key (a ++ b) = rank key a + rank key b := countP_append

lemma rank_of_all {key : StateKey} {es : List (StateKey × Bytes)}
    (h : ∀ e ∈ es, e.1 < key) : rank key es = es.length :=
  countP_eq_length.mpr fun e he => decide_eq_true (h e he)

lemma rank_of_none {key : StateKey} {es : List (StateKey × Bytes)}
    (h : ∀ e ∈ es, key ≤ e.1) : rank key es = 0 :=
  countP_eq_zero.mpr fun e he => by simpa using h e he

lemma Node.position_eq {n : Node} (h : n.Ordered) (key : StateKey) (base : Nat) :
    n.position key base = if (OrderedMap.find key n.entries).isSome then .ok (base + rank key n.entries)
      else .error (base + rank key n.entries) := by
  induction n generalizing base with
  | leaf last value =>
    unfold position
    rcases lt_trichotomy key last with hlt | rfl | hg
    · simp [Node.entries,OrderedMap.find,rank,hlt.ne,hlt,hlt.le]
    · simp [Node.entries,OrderedMap.find,rank]
    · simp [Node.entries,OrderedMap.find,rank,hg.ne',hg,hg.le]
  | branch left right ihl ihr =>
    have hlo : ∀ e ∈ left.entries, e.1 ≤ left.lastKey := h.left.le_lastKey
    have hh : ∀ e ∈ right.entries, left.lastKey < e.1 := h.lastKey_lt
    unfold position
    rw [Node.entries,rank_append,OrderedMap.find_append]
    split
    · next hk =>
      have hri : OrderedMap.find key right.entries = none :=
        OrderedMap.find_eq_none_iff.mpr fun e he => (lt_of_le_of_lt hk (hh e he)).ne
      have hr : rank key right.entries = 0 := rank_of_none fun e he => (lt_of_le_of_lt hk (hh e he)).le
      rw [ihl h.left,hri,hr]
      simp
    · next hk =>
      have hk' : left.lastKey < key := not_le.mp hk
      have hl : OrderedMap.find key left.entries = none :=
        OrderedMap.find_eq_none_iff.mpr fun e he => (lt_of_le_of_lt (hlo e he) hk').ne'
      have hr : rank key left.entries = left.count := by
        rw [rank_of_all fun e he => lt_of_le_of_lt (hlo e he) hk',Tree.count_eq]
      rw [ihr h.right,hl,hr,Nat.add_assoc]
      rfl

section Paths

variable {H : Hasher}

def leafOf (e : StateKey × Bytes) : Node := .leaf e.1 e.2

def leafHashes (H : Hasher) (entries : List (StateKey × Bytes)) : List Hash256 :=
  entries.map fun e => leafHash H e.1 e.2

@[simp] lemma length_leafHashes (es : List (StateKey × Bytes)) :
    (leafHashes H es).length = es.length := length_map _

lemma root_fromMap (m : StateMap) :
    (Tree.fromMap m).root = top Node.branch (m.entries.map leafOf) := by
  rw [top,length_map]
  rfl

variable {es : List (StateKey × Bytes)}

lemma entries_of_top {n : Node} (h : top Node.branch (es.map leafOf) = some n) :
    n.entries = es := by
  have ha : (top Node.branch (es.map leafOf)).elim [] Node.entries =
      Tree.levelEntries (es.map leafOf) := Tree.entries_collapse (by omega)
  rw [h] at ha
  simpa [Tree.levelEntries,flatMap_map,Node.entries,leafOf] using ha

lemma hash_of_top {n : Node} (h : top Node.branch (es.map leafOf) = some n) :
    top (nodeHash H) (leafHashes H es) = some (n.hash H) := by
  have hm : (top Node.branch (es.map leafOf)).map (Node.hash H) =
      top (nodeHash H) ((es.map leafOf).map (Node.hash H)) :=
    map_top (fun _ _ => rfl) _
  rw [h,map_map] at hm
  exact hm.symm

lemma hash_fromMap (m : StateMap) : (Tree.fromMap m).hash H = rootHash H m.entries.length
      ((top (nodeHash H) (leafHashes H m.entries)).getD Hash256.zero) := by
  rw [Tree.hash,Tree.len_fromMap,root_fromMap]
  cases h : top Node.branch (m.entries.map leafOf) with
  | none =>
    have hni : m.entries = [] := by
      by_contra hne
      obtain ⟨n,hn⟩ : ∃ n, top Node.branch (m.entries.map leafOf) = some n :=
        top_isSome fun hm => hne (map_eq_nil_iff.mp hm)
      rw [hn] at h
      cases h
    rw [hni]
    rfl
  | some n => rw [hash_of_top h]; rfl

lemma entryAt_top (H : Hasher) (hne : es ≠ []) :
    ∀ i < es.length, ∃ e path, es[i]? = some e ∧ PathTo (nodeHash H) (leafHashes H es) i path ∧
      ∀ n, top Node.branch (es.map leafOf) = some n →
        ∀ acc, n.entryAt H i acc = (e.1,e.2,path ++ acc.reverse) := by
  refine halves_induction (P := fun es => ∀ i < es.length, ∃ e path,
    es[i]? = some e ∧ PathTo (nodeHash H) (leafHashes H es) i path ∧
    ∀ n, top Node.branch (es.map leafOf) = some n →
      ∀ acc, n.entryAt H i acc = (e.1,e.2,path ++ acc.reverse)) ?_ ?_ hne
  · intro e i hi
    obtain rfl : i = 0 := Nat.lt_one_iff.mp hi
    refine ⟨e,[],rfl,.one _,fun n hn acc => ?_⟩
    cases hn
    rfl
  · intro a b ha iha ihb i hi
    obtain ⟨x,y,hx,hy,hxy⟩ := top_halves Node.branch (halves_map (f := leafOf) ha)
    have hc : x.count = a.length := by rw [Tree.count_eq,entries_of_top hx]
    have hh : Halves (leafHashes H a) (leafHashes H b) := halves_map ha
    rw [map_append,leafHashes,map_append]
    by_cases hl : i < a.length
    · obtain ⟨e,path,he,hp,hen⟩ := iha i hl
      refine ⟨e,path ++ [y.hash H],by rw [getElem?_append_left hl,he],
        .left hh hp (hash_of_top hy),fun n hn acc => ?_⟩
      obtain rfl := Option.some.inj (hxy.symm.trans hn)
      rw [Node.entryAt,if_pos (hc ▸ hl),hen x hx]
      simp
    · obtain ⟨j,rfl⟩ := Nat.exists_eq_add_of_le (Nat.le_of_not_lt hl)
      rw [length_append] at hi
      obtain ⟨e,path,he,hp,hen⟩ := ihb j (by omega)
      have hr : PathTo (nodeHash H) (leafHashes H a ++ leafHashes H b)
          ((leafHashes H a).length + j) (path ++ [x.hash H]) :=
        .right hh hp (hash_of_top hx)
      rw [length_leafHashes] at hr
      refine ⟨e,path ++ [x.hash H],?_,hr,fun n hn acc => ?_⟩
      · rw [getElem?_append_right (by omega),Nat.add_sub_cancel_left,he]
      · obtain rfl := Option.some.inj (hxy.symm.trans hn)
        rw [Node.entryAt,if_neg (by omega),hc,Nat.add_sub_cancel_left,hen y hy]
        simp

end Paths

end Astrolune.State
