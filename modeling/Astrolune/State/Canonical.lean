import Astrolune.State.Authentic
import Astrolune.State.Formats

namespace Astrolune.State
open Lib Codec Decoder Reader List

variable {H : Hasher} {bs rest : Bytes}

def EntryFits (e : StateKey × Bytes) : Prop :=
  e.1.length ≤ maxStateKeyBytes ∧ e.2.length ≤ maxStateValueBytes

lemma readBounded_run_ok {lim : Nat} (hl : lim < 2 ^ 64) {b : Bytes} :
    (readBytes lim).run bs = .ok (b,rest) ↔ b.length ≤ lim ∧ bs = blob b ++ rest :=
  readBytes_run_ok.trans (and_congr_left fun _ => ⟨And.left,fun h => ⟨h,h.trans_lt hl⟩⟩)

lemma exact_entry : Exact readEntry entryBytes EntryFits := by
  intro bs e rest
  simp only [readEntry,bind_run_ok,pure_run_ok,readBounded_run_ok (by decide : maxStateKeyBytes < 2 ^ 64),
    readBounded_run_ok (by decide : maxStateValueBytes < 2 ^ 64)]
  constructor
  · rintro ⟨key,_,⟨hk,rfl⟩,value,_,⟨hv,rfl⟩,rfl,rfl⟩
    refine ⟨⟨hk,hv⟩,?_⟩
    rw [entryBytes,append_assoc]
  · rintro ⟨⟨hk,hv⟩,rfl⟩
    rw [entryBytes,append_assoc]
    exact ⟨e.1,_,⟨hk,rfl⟩,e.2,rest,⟨hv,rfl⟩,rfl,rfl⟩

lemma entries_of_check {count : Nat} {prev : Option StateKey} {u : Unit}
    (h : (checkEntries count prev).run bs = .ok (u,rest)) :
    ∃ es : List (StateKey × Bytes), es.length = count ∧ (∀ e ∈ es, EntryFits e) ∧
      (es.Pairwise fun a b => a.1 < b.1) ∧ (∀ p ∈ prev, ∀ e ∈ es, p < e.1) ∧
      bs = es.flatMap entryBytes ++ rest := by
  induction count generalizing bs prev with
  | zero =>
    obtain ⟨_,rfl⟩ := pure_run_ok.mp h
    exact ⟨[],rfl,forall_mem_nil _,.nil,fun _ _ => forall_mem_nil _,rfl⟩
  | succ count ih =>
    simp only [checkEntries,bind_run_ok,check_run_ok,
      readBounded_run_ok (by decide : maxStateKeyBytes < 2 ^ 64),
      readBounded_run_ok (by decide : maxStateValueBytes < 2 ^ 64)] at h
    obtain ⟨key,_,⟨hk,rfl⟩,_,_,⟨hpr,rfl⟩,value,_,⟨hv,rfl⟩,hr⟩ := h
    obtain ⟨es,hc,hf,hs,ha,rfl⟩ := ih hr
    have hh := ha key rfl
    refine ⟨(key,value) :: es,congrArg (· + 1) hc,forall_mem_cons.mpr ⟨⟨hk,hv⟩,hf⟩,
      pairwise_cons.mpr ⟨hh,hs⟩,fun p hp => ?_,?_⟩
    · have hp' := hpr p hp
      exact forall_mem_cons.mpr ⟨hp',fun e he => hp'.trans (hh e he)⟩
    · rw [flatMap_cons,entryBytes,append_assoc,append_assoc]

variable {root : Hash256} {key : StateKey}

lemma bytes_of_decodeEntries {m : StateMap} (h : decodeEntries bs = .ok (m,root)) :
    bs = snapshotMagic ++ (u16Bytes 1 ++ (leBytes 8 m.entries.length ++ (root.1 ++
      m.entries.flatMap entryBytes))) := by
  simp only [decodeEntries,bind_eq_ok,ensure_eq_ok,pure_ok_iff,Prod.exists,readHeader,boundedLength,
    bind_run_ok,pure_run_ok,check_run_ok,failingAs_run_ok,readExact_run_ok,readU16_run_ok,
    readU64_run_ok,readFixed_run_ok,finish_run_ok,StateT.run_get,Prod.mk.injEq] at h
  obtain ⟨_,_,count,top,saved,_,⟨_,_,⟨_,rfl⟩,_,_,⟨rfl,rfl⟩,_,_,rfl,_,_,⟨rfl,rfl⟩,_,_,
    ⟨size,_,rfl,_,_,⟨_,rfl⟩,rfl,rfl⟩,_,_,rfl,_,_,⟨rfl,rfl⟩,_,_,hc,_,_,⟨rfl,rfl⟩,
    ⟨rfl,rfl,rfl⟩,rfl⟩,read,_,hr,rfl,rfl⟩ := h
  obtain ⟨es,hcou,hf,hso,_,rfl⟩ := entries_of_check hc
  -- the second pass reads what the first one walked over
  have hs := (exact_entry.many size.toNat _ es []).mpr ⟨⟨hcou,hf⟩,rfl⟩
  rw [hs] at hr
  obtain ⟨rfl,rfl⟩ := Prod.mk.inj (Except.ok.inj hr)
  have hco := OrderedMap.collect_entries (⟨es,hso⟩ : StateMap)
  simp only at hco
  rw [hco]
  simp only [append_nil,hcou]
  rfl

lemma exportSnapshot_of_decode {s : InMemoryState} (h : InMemoryState.decodeSnapshot H bs = .ok s) :
    s.exportSnapshot H = bs := by
  unfold InMemoryState.decodeSnapshot at h
  split at h
  · cases h
  · next m root hd =>
    dsimp only at h
    split_ifs at h with hr
    cases h
    refine Eq.trans ?_ (bytes_of_decodeEntries hd).symm
    rw [InMemoryState.exportSnapshot,InMemoryState.entries_eq,InMemoryState.len_eq,hr,
      InMemoryState.map_ofMap]

lemma encodable_of_witness {w : StateWitness}
    (h : w.proof.verify H root w.key w.value = true) : w.Encodable := by
  simp only [StateProof.verify,Bool.and_eq_true,decide_eq_true_eq] at h
  obtain ⟨⟨⟨⟨⟨⟨hn,hc⟩,hi⟩,hs⟩,hk⟩,hv⟩,_⟩ := h
  exact ⟨hk,hv,hs,hn,hc,hi⟩

lemma StateAbsenceProof.encodable_of_verify {p : StateAbsenceProof}
    (h : p.verify H root key = true) : p.Encodable := by
  simp only [StateAbsenceProof.verify,Bool.and_eq_true,Option.all_eq_true] at h
  obtain ⟨⟨⟨_,hl⟩,hu⟩,_⟩ := h
  exact ⟨fun w hw => encodable_of_witness (hl w hw).2,fun w hw => encodable_of_witness (hu w hw).2⟩

lemma StateValueProof.encodable_of_accepted {p : StateValueProof}
    {value : Option Bytes} (h : p.verify H root key = .ok value) : p.framed.Encodable := by
  cases p with
  | absent pf =>
    simp only [StateValueProof.verify] at h
    split_ifs at h with hp
    exact StateAbsenceProof.encodable_of_verify hp
  | present w =>
    simp only [StateValueProof.verify] at h
    split_ifs at h with hw
    obtain ⟨rfl,hp⟩ := hw
    exact ⟨fun _ hm => Option.mem_some.mp hm ▸ encodable_of_witness hp,by simp [StateValueProof.framed]⟩

/-- A snapshot and each kind of proof has one encoding: what a state makes decodes to itself, and
whatever decodes is written again as it was. -/
theorem state_encodings_canonical (H : Hasher) :
    (∀ s : InMemoryState, InMemoryState.fromSnapshot H (s.exportSnapshot H) (s.root H) = .ok s) ∧
    (∀ bytes s, InMemoryState.decodeSnapshot H bytes = .ok s → s.exportSnapshot H = bytes) ∧
    RoundTrips (fun p => ∃ s key, StateValueProof.create H s key = .ok p) StateValueProof.toBytes
      StateValueProof.fromBytes ∧
    RoundTrips (fun p => ∃ (s : InMemoryState) (key : StateKey), s.data.proveAbsence H key = .ok (some p))
      StateAbsenceProof.toBytes StateAbsenceProof.fromBytes := by
  refine ⟨InMemoryState.fromSnapshot_exportSnapshot,fun _ _ => exportSnapshot_of_decode,?_,?_⟩
  · refine RoundTrips.of (fun p hp => (StateValueProof.writes p _).mpr ⟨hp,rfl⟩) StateValueProof.decodes ?_
    rintro p ⟨s,key,hc⟩
    by_cases hk : key.length ≤ maxStateKeyBytes
    · obtain ⟨p',hc',hv⟩ := create_verify H s hk
      rw [hc] at hc'
      cases hc'
      exact StateValueProof.encodable_of_accepted hv
    · simp only [StateValueProof.create,bind_eq_ok,ensure_eq_ok] at hc
      obtain ⟨_,hf,_⟩ := hc
      exact absurd hf hk
  · refine RoundTrips.of (fun p hp => (StateAbsenceProof.writes p _).mpr ⟨hp,rfl⟩) StateAbsenceProof.decodes ?_
    rintro p ⟨s,key,hpr⟩
    have hk : key.length ≤ maxStateKeyBytes := by
      simp only [Tree.proveAbsence,bind_eq_ok,ensure_eq_ok] at hpr
      obtain ⟨_,hf,_⟩ := hpr
      exact hf
    cases hg : s.map.get key with
    | none =>
      obtain ⟨p',hp',hv⟩ := proveAbsence_of_get H s.bounded hk hg
      rw [← s.data_eq,hpr] at hp'
      cases hp'
      exact StateAbsenceProof.encodable_of_verify hv
    | some value =>
      have hpo := position_fromMap s.map key
      rw [hg,if_pos Option.isSome_some,← s.data_eq] at hpo
      simp only [Tree.proveAbsence,hpo,bind_eq_ok,pure_ok_iff] at hpr
      obtain ⟨_,_,hn⟩ := hpr
      cases hn

end Astrolune.State
