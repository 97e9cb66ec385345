import Astrolune.State.Authentic

namespace Astrolune.State
open Lib Codec List

section Inputs

def leafInput (key : StateKey) (value : Bytes) : Bytes :=
  domainInput (ascii "astrolune.state.leaf.v1")
    (leBytes 8 key.length ++ (key ++ (leBytes 8 value.length ++ value)))

def nodeInput (p : Hash256 × Hash256) : Bytes :=
  domainInput (ascii "astrolune.state.node.v1") (p.1.1 ++ p.2.1)

def rootInput (count : Nat) (top : Hash256) : Bytes :=
  domainInput (ascii "astrolune.state.v1") (leBytes 8 count ++ top.1)

variable (H : Hasher)

def mapInputs (m : StateMap) : List Bytes :=
  m.entries.map (fun e => leafInput e.1 e.2) ++
    (joinedBy (nodeHash H) (leafHashes H m.entries)).map nodeInput ++
    [rootInput m.entries.length
      ((top (nodeHash H) (leafHashes H m.entries)).getD Hash256.zero)]

def StateProof.inputs (p : StateProof) (key : StateKey) (value : Bytes) : List Bytes :=
  [leafInput key value] ++
    (walkedBy (nodeHash H) (leafHash H key value) p.index.toNat p.leafCount.toNat
      p.siblings).map nodeInput ++
    ((walk (nodeHash H) (leafHash H key value) p.index.toNat p.leafCount.toNat
      p.siblings).map (rootInput p.leafCount.toNat)).toList

def StateWitness.inputs (w : StateWitness) : List Bytes := w.proof.inputs H w.key w.value

def StateAbsenceProof.inputs (p : StateAbsenceProof) : List Bytes :=
  rootInput 0 Hash256.zero ::
    (p.lower.toList ++ p.upper.toList).flatMap (StateWitness.inputs H)

def StateValueProof.inputs : StateValueProof → List Bytes
  | .present w => w.inputs H
  | .absent p => p.inputs H

end Inputs

structure Addressable (m : StateMap) : Prop where
  count : m.entries.length < 2 ^ 64
  keys : ∀ e ∈ m.entries, e.1.length < 2 ^ 64
  values : ∀ e ∈ m.entries, e.2.length < 2 ^ 64

lemma leafInput_injective {key key' : StateKey} {value value' : Bytes}
    (hk : key.length < 2 ^ 64) (hk' : key'.length < 2 ^ 64)
    (h : leafInput key value = leafInput key' value') : key = key' ∧ value = value' := by
  obtain ⟨-,hm⟩ := domainInput_injective (by decide) (by decide) h
  obtain ⟨hl,hr⟩ := append_inj hm (by simp)
  obtain ⟨hke,hv⟩ := append_inj hr (leBytes_injective hk hk' hl)
  exact ⟨hke,(append_inj hv (by simp)).2⟩

lemma nodeInput_injective {p q : Hash256 × Hash256} (h : nodeInput p = nodeInput q) : p = q :=
  domainInput_pair_injective (by decide) h

lemma rootInput_injective {count count' : Nat} {top top' : Hash256} (hc : count < 2 ^ 64)
    (hc' : count' < 2 ^ 64) (h : rootInput count top = rootInput count' top') :
    count = count' ∧ top = top' := by
  obtain ⟨-,hm⟩ := domainInput_injective (by decide) (by decide) h
  obtain ⟨hco,ht⟩ := append_inj hm (by simp)
  exact ⟨leBytes_injective hc hc' hco,Subtype.ext ht⟩

section Sound

variable {H : Hasher} {m : StateMap} {hashed : Bytes → Prop}

variable {key : StateKey}

lemma StateProof.entry_of_verify {p : StateProof} {value : Bytes}
    (hm : Addressable m) (hf : CollisionFree H hashed)
    (hma : ∀ x ∈ mapInputs H m, hashed x) (hp : ∀ x ∈ p.inputs H key value, hashed x)
    (h : p.verify H ((Tree.fromMap m).hash H) key value = true) :
    m.entries[p.index.toNat]? = some (key,value) ∧ p.leafCount.toNat = m.entries.length := by
  simp only [verify,Bool.and_eq_true,decide_eq_true_eq] at h
  obtain ⟨⟨⟨⟨⟨⟨hz,-⟩,hin⟩,-⟩,hke⟩,-⟩,hc⟩ := h
  rw [hash_fromMap] at hc
  obtain ⟨t,ht,hr⟩ := Option.map_eq_some_iff.mp hc
  change walk (nodeHash H) _ _ _ _ = some t at ht
  -- the root fixes the number of entries and the hash above them
  obtain ⟨hco,hto⟩ := rootInput_injective p.leafCount.toNat_lt hm.count (hf _ _
    (hp _ (by simp [inputs,ht])) (hma _ (by simp [mapInputs])) hr)
  refine ⟨?_,hco⟩
  have hi : p.index.toNat < m.entries.length := hco ▸ UInt64.lt_iff_toNat_lt.mp hin
  have hn : leafHashes H m.entries ≠ [] := by
    intro hni
    rw [leafHashes,map_eq_nil_iff] at hni
    simp [hni] at hi
  obtain ⟨t',ht'⟩ : ∃ t', top (nodeHash H) (leafHashes H m.entries) = some t' := top_isSome hn
  rw [ht',Option.getD_some] at hto
  subst hto
  have hap : JoinsApart (nodeHash H)
      (walkedBy (nodeHash H) (leafHash H key value) p.index.toNat p.leafCount.toNat
        p.siblings) (joinedBy (nodeHash H) (leafHashes H m.entries)) := by
    intro a ha b hb hab
    refine nodeInput_injective (hf _ _ (hp _ ?_) (hma _ ?_) hab)
    · exact mem_append_left _ (mem_append_right _ (mem_map_of_mem ha))
    · exact mem_append_left _ (mem_append_right _ (mem_map_of_mem hb))
  rw [hco] at ht hap
  rw [← @length_leafHashes H] at ht hap hi
  have hl := walk_sound hn hi ht ht' hap
  rw [leafHashes,getElem?_map] at hl
  obtain ⟨e,he,hh⟩ := Option.map_eq_some_iff.mp hl
  have hme : e ∈ m.entries := mem_of_getElem? he
  obtain ⟨hk,hv⟩ := leafInput_injective (hm.keys e hme) (Nat.lt_of_le_of_lt hke (by decide))
    (hf _ _ (hma _ (mem_append_left _ (mem_append_left _ (mem_map_of_mem hme))))
      (hp _ (by simp [inputs])) hh)
  rw [he,← hk,← hv]

lemma get_eq_none_of_gap {r : Nat}
    (hlo : r = 0 ∨ ∃ e, m.entries[r - 1]? = some e ∧ e.1 < key)
    (hup : r = m.entries.length ∨ ∃ e, m.entries[r]? = some e ∧ key < e.1) :
    m.get key = none := by
  have hm : ∀ {i j : Nat} {a b : StateKey × Bytes}, m.entries[i]? = some a →
      m.entries[j]? = some b → i ≤ j → a.1 ≤ b.1 := by
    intro i j a b ha hb hij
    obtain ⟨hi,rfl⟩ := List.getElem?_eq_some_iff.mp ha
    obtain ⟨hj,rfl⟩ := List.getElem?_eq_some_iff.mp hb
    rcases Nat.eq_or_lt_of_le hij with rfl | hlt
    · exact le_refl _
    · exact (pairwise_iff_getElem.mp m.sorted i j hi hj hlt).le
  refine OrderedMap.get_eq_none_iff.mpr fun e he hk => ?_
  obtain ⟨j,hj⟩ := mem_iff_getElem?.mp he
  have hlt := (List.getElem?_eq_some_iff.mp hj).1
  by_cases hjr : j < r
  · rcases hlo with rfl | ⟨a,ha,hl⟩
    · omega
    · exact absurd (hk ▸ hm hj ha (by omega)) (not_le.mpr hl)
  · rcases hup with rfl | ⟨b,hb,hu⟩
    · omega
    · exact absurd (hk ▸ hm hb hj (by omega)) (not_le.mpr hu)

lemma StateAbsenceProof.get_of_verify {p : StateAbsenceProof}
    (hm : Addressable m) (hf : CollisionFree H hashed)
    (hma : ∀ x ∈ mapInputs H m, hashed x) (hp : ∀ x ∈ p.inputs H, hashed x)
    (h : p.verify H ((Tree.fromMap m).hash H) key = true) : m.get key = none := by
  have he : ∀ w ∈ p.lower.toList ++ p.upper.toList,
      w.proof.verify H ((Tree.fromMap m).hash H) w.key w.value = true →
      m.entries[w.proof.index.toNat]? = some (w.key,w.value) ∧
        w.proof.leafCount.toNat = m.entries.length := by
    intro w hw hv
    refine StateProof.entry_of_verify hm hf hma (fun x hx => hp x ?_) hv
    exact mem_cons_of_mem _ (mem_flatMap.mpr ⟨w,hw,hx⟩)
  obtain ⟨lower,upper⟩ := p
  simp only [verify,adjacent,Bool.and_eq_true,decide_eq_true_eq] at h
  obtain ⟨⟨⟨-,hlo⟩,hup⟩,ha⟩ := h
  cases lower with
  | none =>
    cases upper with
    | none =>
      simp only [decide_eq_true_eq] at ha
      rw [hash_fromMap] at ha
      obtain ⟨hc,-⟩ := rootInput_injective hm.count (by decide) (hf _ _
        (hma _ (by simp [mapInputs])) (hp _ mem_cons_self) ha)
      exact get_eq_none_of_gap (r := 0) (.inl rfl) (.inl hc.symm)
    | some u =>
      simp only [Option.all_some,Bool.and_eq_true,decide_eq_true_eq] at hup ha
      obtain ⟨hu,-⟩ := he u (by simp) hup.2
      rw [ha] at hu
      exact get_eq_none_of_gap (r := 0) (.inl rfl) (.inr ⟨_,hu,hup.1⟩)
  | some l =>
    simp only [Option.all_some,Bool.and_eq_true,decide_eq_true_eq] at hlo
    obtain ⟨hl,hc⟩ := he l (by simp) hlo.2
    have hb : m.entries[l.proof.index.toNat + 1 - 1]? = some (l.key,l.value) := by
      rw [Nat.add_sub_cancel,hl]
    cases upper with
    | none =>
      simp only [decide_eq_true_eq] at ha
      exact get_eq_none_of_gap (.inr ⟨_,hb,hlo.1⟩) (.inl (ha.trans hc))
    | some u =>
      simp only [Option.all_some,Bool.and_eq_true,decide_eq_true_eq] at hup ha
      obtain ⟨hu,-⟩ := he u (by simp) hup.2
      rw [← ha.2] at hu
      exact get_eq_none_of_gap (.inr ⟨_,hb,hlo.1⟩) (.inr ⟨_,hu,hup.1⟩)

lemma StateValueProof.get_of_verify {p : StateValueProof} {value : Option Bytes}
    (hm : Addressable m) (hf : CollisionFree H hashed)
    (hma : ∀ x ∈ mapInputs H m, hashed x) (hp : ∀ x ∈ p.inputs H, hashed x)
    (h : p.verify H ((Tree.fromMap m).hash H) key = .ok value) : m.get key = value := by
  cases p with
  | present w =>
    simp only [verify] at h
    split at h
    · next hw =>
      obtain ⟨rfl,hv⟩ := hw
      cases h
      obtain ⟨he,-⟩ := StateProof.entry_of_verify hm hf hma hp hv
      exact OrderedMap.get_eq_some_iff.mpr (mem_of_getElem? he)
    · cases h
  | absent p =>
    simp only [verify] at h
    split at h
    · next hv =>
      cases h
      exact StateAbsenceProof.get_of_verify hm hf hma hp hv
    · cases h

end Sound

lemma create_of_long (H : Hasher) (s : InMemoryState) {key : StateKey}
    (h : maxStateKeyBytes < key.length) :
    StateValueProof.create H s key = .error .limitExceeded := by
  rw [StateValueProof.create,ensure,if_neg (by omega)]
  rfl

/-- Proofs of every key that a state can hold are created and give its value, longer keys are
refused, and no proof of anything else is accepted under the root of a map. -/
theorem state_proofs_exact (H : Hasher) :
    (∀ (s : InMemoryState) (key : StateKey),
      if key.length ≤ maxStateKeyBytes then
        ∃ p, StateValueProof.create H s key = .ok p ∧
          p.verify H (s.root H) key = .ok (s.get key)
      else StateValueProof.create H s key = .error .limitExceeded) ∧
    ∀ (m : StateMap) (key : StateKey), Addressable m →
      (∀ (p : StateProof) (value : Bytes),
        CollisionFree H (· ∈ mapInputs H m ++ p.inputs H key value) →
        p.verify H ((Tree.fromMap m).hash H) key value = true →
        m.entries[p.index.toNat]? = some (key, value) ∧ m.get key = some value) ∧
      (∀ p : StateAbsenceProof,
        CollisionFree H (· ∈ mapInputs H m ++ p.inputs H) →
        p.verify H ((Tree.fromMap m).hash H) key = true → m.get key = none) ∧
      (∀ (p : StateValueProof) (value : Option Bytes),
        CollisionFree H (· ∈ mapInputs H m ++ p.inputs H) →
        p.verify H ((Tree.fromMap m).hash H) key = .ok value → m.get key = value) := by
  refine ⟨fun s key => ?_,fun m key hm => ⟨fun p value hf h => ?_,fun p hf h => ?_,
    fun p value hf h => ?_⟩⟩
  · split
    · next hk => exact create_verify H s hk
    · next hk => exact create_of_long H s (by omega)
  · obtain ⟨he,-⟩ := StateProof.entry_of_verify hm hf
      (fun x hx => mem_append_left _ hx) (fun x hx => mem_append_right _ hx) h
    exact ⟨he,OrderedMap.get_eq_some_iff.mpr (mem_of_getElem? he)⟩
  · exact StateAbsenceProof.get_of_verify hm hf
      (fun x hx => mem_append_left _ hx) (fun x hx => mem_append_right _ hx) h
  · exact StateValueProof.get_of_verify hm hf
      (fun x hx => mem_append_left _ hx) (fun x hx => mem_append_right _ hx) h

namespace TwoKeys

def map : StateMap := (OrderedMap.empty.insert [1] [5]).insert [3] [7]

def second : StateProof := ⟨1, 2, [leafHash residueHash [1] [5]]⟩

def between : StateAbsenceProof :=
  ⟨some ⟨[1], [5], ⟨0, 2, [leafHash residueHash [3] [7]]⟩⟩, some ⟨[3], [7], second⟩⟩

end TwoKeys

open TwoKeys in
theorem state_proofs_two_keys :
    (second.verify residueHash ((Tree.fromMap map).hash residueHash) [3] [7] = true ∧
      map.entries[1]? = some ([3], [7])) ∧
    between.verify residueHash ((Tree.fromMap map).hash residueHash) [2] = true ∧
      map.get [2] = none := by
  have hm : Addressable map := ⟨by decide,by decide,by decide⟩
  have hs : second.verify residueHash ((Tree.fromMap map).hash residueHash) [3] [7] = true := by
    decide +kernel
  have hb : between.verify residueHash ((Tree.fromMap map).hash residueHash) [2] = true := by
    decide +kernel
  have ho : ∀ x ∈ mapInputs residueHash map ++ second.inputs residueHash [3] [7],
      ∀ y ∈ mapInputs residueHash map ++ second.inputs residueHash [3] [7],
        residueHash x = residueHash y → x = y := by
    decide +kernel
  have ht : ∀ x ∈ mapInputs residueHash map ++ between.inputs residueHash,
      ∀ y ∈ mapInputs residueHash map ++ between.inputs residueHash,
        residueHash x = residueHash y → x = y := by
    decide +kernel
  refine ⟨⟨hs,?_⟩,hb,?_⟩
  · exact (((state_proofs_exact residueHash).2 map [3] hm).1 second [7]
      (fun x y hx hy => ho x hx y hy) hs).1
  · exact ((state_proofs_exact residueHash).2 map [2] hm).2.1 between
      (fun x y hx hy => ht x hx y hy) hb

/-- Of a key of 257 bytes no proof is created, though no state holds it. -/
theorem state_proofs_not_of_every_key :
    ¬ ∃ p, StateValueProof.create residueHash .new (replicate 257 0) = .ok p ∧
      p.verify residueHash (InMemoryState.new.root residueHash) (replicate 257 0) =
        .ok (InMemoryState.new.get (replicate 257 0)) := by
  intro ⟨p,hp,_⟩
  have hl : maxStateKeyBytes < (replicate 257 (0 : UInt8)).length := by
    rw [length_replicate,maxStateKeyBytes]
    omega
  rw [create_of_long residueHash .new hl] at hp
  cases hp

end Astrolune.State
