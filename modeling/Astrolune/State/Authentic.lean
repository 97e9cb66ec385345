import Astrolune.State.Prove
import Astrolune.Types.Digest

namespace Astrolune.State
open Lib Codec List Option

section Rank

variable {es : List (StateKey × Bytes)} {key : StateKey} {i : Nat} {e : StateKey × Bytes}

lemma rank_cons_lt {rest : List (StateKey × Bytes)} (h : e.1 < key) :
    rank key (e :: rest) = rank key rest + 1 := countP_cons_of_pos (decide_eq_true h)

lemma rank_cons_ge {rest : List (StateKey × Bytes)}
    (hs : (e :: rest).Pairwise fun a b => a.1 < b.1) (h : key ≤ e.1) : rank key (e :: rest) = 0 := by
  refine rank_of_none fun x hx => ?_
  rcases mem_cons.mp hx with rfl | hx
  · exact h
  · exact h.trans (rel_of_pairwise_cons hs hx).le

lemma getElem?_rank {value : Bytes} (hs : es.Pairwise fun a b => a.1 < b.1)
    (h : OrderedMap.find key es = some value) : es[rank key es]? = some (key,value) := by
  induction es with
  | nil => cases h
  | cons e rest ih =>
    rw [OrderedMap.find] at h
    split at h
    · next hk =>
      rw [rank_cons_ge hs hk.le,getElem?_cons_zero,hk,← some.inj h]
    · next hk =>
      have hm := (OrderedMap.find_eq_some_iff hs.of_cons).mp h
      have hl : e.1 < key := rel_of_pairwise_cons hs hm
      rw [rank_cons_lt hl,getElem?_cons_succ,ih hs.of_cons h]

lemma lt_of_lt_rank (hs : es.Pairwise fun a b => a.1 < b.1) (hi : i < rank key es)
    (he : es[i]? = some e) : e.1 < key := by
  induction es generalizing i with
  | nil => simp at he
  | cons x rest ih =>
    by_cases hx : x.1 < key
    · cases i with
      | zero =>
        cases he
        exact hx
      | succ i =>
        rw [rank_cons_lt hx] at hi
        exact ih hs.of_cons (by omega) he
    · rw [rank_cons_ge hs (not_lt.mp hx)] at hi
      omega

lemma le_of_rank_le (hs : es.Pairwise fun a b => a.1 < b.1) (hi : rank key es ≤ i)
    (he : es[i]? = some e) : key ≤ e.1 := by
  induction es generalizing i with
  | nil => simp at he
  | cons x rest ih =>
    by_cases hx : x.1 < key
    · rw [rank_cons_lt hx] at hi
      cases i with
      | zero => omega
      | succ i => exact ih hs.of_cons (by omega) he
    · cases i with
      | zero =>
        cases he
        exact not_lt.mp hx
      | succ i =>
        have hm : e ∈ rest := mem_of_getElem? he
        exact (not_lt.mp hx).trans (rel_of_pairwise_cons hs hm).le

end Rank

section Complete

variable {H : Hasher} {m : StateMap}

lemma toNat_ofNat_of_le {n : Nat} (h : n ≤ maxStateEntries) : (UInt64.ofNat n).toNat = n := by
  unfold maxStateEntries at h
  rw [UInt64.toNat_ofNat']
  omega

lemma verify_path (hb : Bounded m) {i : Nat} {e : StateKey × Bytes} {path : List Hash256}
    (he : m.entries[i]? = some e)
    (hp : PathTo (nodeHash H) (leafHashes H m.entries) i path) :
    StateProof.verify H ⟨UInt64.ofNat i,UInt64.ofNat m.entries.length,path⟩
      ((Tree.fromMap m).hash H) e.1 e.2 = true := by
  have hi : i < m.entries.length := (List.getElem?_eq_some_iff.mp he).1
  have hc := hb.count
  have hn : (UInt64.ofNat m.entries.length).toNat = m.entries.length := toNat_ofNat_of_le hc
  have hin : (UInt64.ofNat i).toNat = i := toNat_ofNat_of_le (by omega)
  have hm : e ∈ m.entries := mem_of_getElem? he
  have hpa : path.length ≤ maxSiblings := hp.length_le (k := 20) (by rw [length_leafHashes]; exact hc)
  obtain ⟨x,hx,hw⟩ := hp.walk
  rw [leafHashes,getElem?_map,he] at hx
  obtain rfl := some.inj hx
  rw [length_leafHashes] at hw
  obtain ⟨t,ht⟩ : ∃ t, top (nodeHash H) (leafHashes H m.entries) = some t :=
    top_isSome fun hni => by simp [leafHashes] at hni; simp [hni] at hi
  simp only [StateProof.verify,Bool.and_eq_true,decide_eq_true_eq,hn,hin]
  refine ⟨⟨⟨⟨⟨⟨?_,hc⟩,?_⟩,hpa⟩,hb.keys e hm⟩,hb.values e hm⟩,?_⟩
  · intro hz
    rw [hz] at hn
    simp at hn
    omega
  · rw [UInt64.lt_iff_toNat_lt,hn,hin]
    exact hi
  · change (walk (nodeHash H) _ _ _ _).map _ = _
    rw [hw,ht,hash_fromMap,ht]
    rfl

lemma entryProof_ok (H : Hasher) (hb : Bounded m) {i : Nat}
    (hi : i < m.entries.length) :
    ∃ w, (Tree.fromMap m).entryProof H i = some w ∧ m.entries[i]? = some (w.key,w.value) ∧
      w.proof.verify H ((Tree.fromMap m).hash H) w.key w.value = true ∧
      w.proof.index.toNat = i ∧ w.proof.leafCount.toNat = m.entries.length := by
  have hne : m.entries ≠ [] := ne_nil_of_length_pos (by omega)
  obtain ⟨e,path,he,hp,hen⟩ := entryAt_top H hne i hi
  obtain ⟨n,hn⟩ : ∃ n, top Node.branch (m.entries.map leafOf) = some n :=
    top_isSome fun hni => hne (map_eq_nil_iff.mp hni)
  have hc := hb.count
  refine ⟨⟨e.1,e.2,⟨UInt64.ofNat i,UInt64.ofNat m.entries.length,path⟩⟩,?_,he,
    verify_path hb he hp,toNat_ofNat_of_le (by omega),toNat_ofNat_of_le hc⟩
  rw [Tree.entryProof,Tree.len_fromMap,if_neg (by omega),root_fromMap,hn,map_some,
    hen n hn,reverse_nil,append_nil]

lemma position_fromMap (m : StateMap) (key : StateKey) : (Tree.fromMap m).position key =
    if (m.get key).isSome then .ok (rank key m.entries) else .error (rank key m.entries) := by
  unfold Tree.position
  cases h : (Tree.fromMap m).root with
  | none =>
    have hn : m.entries = [] := by
      have := Tree.entries_fromMap m
      rw [Tree.entries,h] at this
      exact this.symm
    rw [OrderedMap.get,hn]
    rfl
  | some n =>
    obtain ⟨ho,he⟩ := Tree.ordered_root h
    change n.position key 0 = _
    rw [Node.position_eq ho,he,Nat.zero_add]
    rfl

lemma rank_le_length (key : StateKey) (es : List (StateKey × Bytes)) :
    rank key es ≤ es.length := countP_le_length

lemma prove_of_get (H : Hasher) {key : StateKey} {value : Bytes}
    (hb : Bounded m) (h : m.get key = some value) : ∃ p, (Tree.fromMap m).prove H key = some p ∧
      p.verify H ((Tree.fromMap m).hash H) key value = true := by
  have hr := getElem?_rank m.sorted h
  have hi := (List.getElem?_eq_some_iff.mp hr).1
  obtain ⟨w,hw,he,hve,-,-⟩ := entryProof_ok H hb hi
  rw [hr] at he
  obtain ⟨hk,hv⟩ := Prod.mk.inj (some.inj he)
  refine ⟨w.proof,?_,by rw [hk,hv]; exact hve⟩
  rw [Tree.prove,position_fromMap,h,isSome_some,if_pos rfl]
  change ((Tree.fromMap m).entryProof H _).map _ = _
  rw [hw]
  rfl

lemma proveAbsence_of_get (H : Hasher) {key : StateKey} (hb : Bounded m)
    (hk : key.length ≤ maxStateKeyBytes) (h : m.get key = none) :
    ∃ p, (Tree.fromMap m).proveAbsence H key = .ok (some p) ∧
      p.verify H ((Tree.fromMap m).hash H) key = true := by
  have hle := rank_le_length key m.entries
  refine ⟨⟨(Tree.fromMap m).entryBefore H (rank key m.entries),
    (Tree.fromMap m).entryProof H (rank key m.entries)⟩,?_,?_⟩
  · rw [Tree.proveAbsence,ensure_of hk,ok_bind,position_fromMap,h]
    rfl
  -- the entry below the place, if there is one, and the entry at it
  have hlo : rank key m.entries = 0 ∨ ∃ w,
      (Tree.fromMap m).entryBefore H (rank key m.entries) = some w ∧ w.key < key ∧
      w.proof.verify H ((Tree.fromMap m).hash H) w.key w.value = true ∧
      w.proof.index.toNat + 1 = rank key m.entries ∧
      w.proof.leafCount.toNat = m.entries.length := by
    cases hr : rank key m.entries with
    | zero => exact .inl rfl
    | succ i =>
      obtain ⟨w,hw,he,hv,hi,hc⟩ := entryProof_ok H hb (by omega : i < m.entries.length)
      exact .inr ⟨w,hw,lt_of_lt_rank m.sorted (by omega) he,hv,by omega,hc⟩
  have hup : ((Tree.fromMap m).entryProof H (rank key m.entries) = none ∧
      rank key m.entries = m.entries.length) ∨ ∃ w,
      (Tree.fromMap m).entryProof H (rank key m.entries) = some w ∧ key < w.key ∧
      w.proof.verify H ((Tree.fromMap m).hash H) w.key w.value = true ∧
      w.proof.index.toNat = rank key m.entries ∧
      w.proof.leafCount.toNat = m.entries.length := by
    by_cases hla : rank key m.entries = m.entries.length
    · refine .inl ⟨?_,hla⟩
      rw [Tree.entryProof,Tree.len_fromMap,if_pos (by omega)]
    · obtain ⟨w,hw,he,hv,hi,hc⟩ :=
        entryProof_ok H hb (by omega : rank key m.entries < m.entries.length)
      have hm : (w.key,w.value) ∈ m.entries := mem_of_getElem? he
      have hn : key ≠ w.key := fun heq => OrderedMap.get_eq_none_iff.mp h _ hm heq
      have hg : key ≤ w.key := le_of_rank_le m.sorted (Nat.le_refl _) he
      exact .inr ⟨w,hw,lt_of_le_of_ne hg hn,hv,hi,hc⟩
  simp only [StateAbsenceProof.verify,StateAbsenceProof.adjacent,Bool.and_eq_true, decide_eq_true_eq]
  rcases hlo with hz | ⟨lower,hl,hlk,hlv,hli,hlc⟩
  · have hbe : (Tree.fromMap m).entryBefore H (rank key m.entries) = none := by
      rw [hz]
      rfl
    rw [hbe]
    rcases hup with ⟨hno,hla⟩ | ⟨upper,hu,huk,huv,hui,huc⟩
    · have hni : m.entries = [] := length_eq_zero_iff.mp (by omega)
      rw [hno]
      refine ⟨⟨⟨hk,rfl⟩,rfl⟩,?_⟩
      simp only [decide_eq_true_eq]
      rw [hash_fromMap,hni]
      rfl
    · rw [hu]
      refine ⟨⟨⟨hk,rfl⟩,by simp [huk,huv]⟩,?_⟩
      simp only [decide_eq_true_eq]
      exact UInt64.toNat_inj.mp (by rw [hui,hz]; rfl)
  · rw [hl]
    rcases hup with ⟨hno,hla⟩ | ⟨upper,hu,huk,huv,hui,huc⟩
    · rw [hno]
      refine ⟨⟨⟨hk,by simp [hlk,hlv]⟩,rfl⟩,?_⟩
      simp only [decide_eq_true_eq]
      omega
    · rw [hu]
      refine ⟨⟨⟨hk,by simp [hlk,hlv]⟩,by simp [huk,huv]⟩,?_⟩
      simp only [Bool.and_eq_true,decide_eq_true_eq]
      exact ⟨UInt64.toNat_inj.mp (by omega),by omega⟩

lemma create_verify (H : Hasher) (s : InMemoryState) {key : StateKey}
    (hk : key.length ≤ maxStateKeyBytes) : ∃ p, StateValueProof.create H s key = .ok p ∧
      p.verify H (s.root H) key = .ok (s.get key) := by
  have hr : s.root H = (Tree.fromMap s.map).hash H := by
    rw [InMemoryState.root,s.data_eq]
  rw [StateValueProof.create,ensure_of hk,ok_bind,hr,s.get_eq,s.data_eq]
  cases h : s.map.get key with
  | some value =>
    obtain ⟨p,hp,hv⟩ := prove_of_get H s.bounded h
    rw [hp]
    exact ⟨.present ⟨key,value,p⟩,rfl,if_pos ⟨rfl,hv⟩⟩
  | none =>
    obtain ⟨p,hp,hv⟩ := proveAbsence_of_get H s.bounded hk h
    rw [hp]
    exact ⟨.absent p,rfl,if_pos hv⟩

end Complete

end Astrolune.State
