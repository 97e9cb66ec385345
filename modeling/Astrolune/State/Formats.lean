import Astrolune.State.Proof
import Astrolune.Types.Formats

namespace Astrolune.State
open Lib Codec Decoder Reader List

variable {bs rest : Bytes}

lemma readBytes_run_ok {lim : Nat} {b : Bytes} : (readBytes lim).run bs = .ok (b,rest) ↔
      (b.length ≤ lim ∧ b.length < 2 ^ 64) ∧ bs = blob b ++ rest := by
  simp only [readBytes,boundedLength,bind_run_ok,pure_run_ok,check_run_ok,
    failingAs_run_ok,readU64_run_ok,readExact_run_ok,blob,append_assoc]
  constructor
  · rintro ⟨_,_,⟨size,_,rfl,_,_,⟨hl,rfl⟩,rfl,rfl⟩,hb,rfl⟩
    rw [hb]
    exact ⟨⟨hl,size.toNat_lt⟩,rfl⟩
  · rintro ⟨⟨hl,hf⟩,rfl⟩
    have hs : (UInt64.ofNat b.length).toNat = b.length := UInt64.toNat_ofNat_of_lt' hf
    rw [leBytes_eq_u64 hf]
    exact ⟨b.length,_,⟨UInt64.ofNat b.length,_,rfl,(),_,⟨hs.symm ▸ hl,rfl⟩,hs,rfl⟩,rfl, rfl⟩

namespace StateWitness

lemma validateBounds_eq_ok {keyLen valueLen siblingCount : Nat} {index leafCount : UInt64} {u : Unit} :
    validateBounds keyLen valueLen index leafCount siblingCount = .ok u ↔
      (keyLen ≤ maxStateKeyBytes ∧ valueLen ≤ maxStateValueBytes ∧
        leafCount.toNat ≤ maxStateEntries ∧ siblingCount ≤ maxSiblings) ∧
        leafCount ≠ 0 ∧ index < leafCount := by
  simp only [validateBounds,bind_eq_ok,ensure_eq_ok,exists_and_left,exists_const]

lemma validate_eq_ok {w : StateWitness} {u : Unit} : w.validate = .ok u ↔ w.Encodable := by
  rw [validate,validateBounds_eq_ok]
  constructor
  · rintro ⟨⟨hk,hv,hc,hs⟩,hn,hi⟩
    exact ⟨hk,hv,hs,hn,hc,hi⟩
  · rintro ⟨hk,hv,hs,hn,hc,hi⟩
    exact ⟨⟨hk,hv,hc,hs⟩,hn,hi⟩

lemma exact_present : Exact readPresent StateWitness.bytes Encodable := by
  refine Exact.of (fun _ h => reads_present h) fun bs w rest h => ?_
  have hs := fun n => (Exact.readFixed 32).many n
  simp only [readPresent,bind_run_ok,pure_run_ok,readBytes_run_ok,
    failingAs_run_ok,readU64_run_ok,readU8_run_ok,give_run_ok,
    validateBounds_eq_ok,hs _ _ _ _] at h
  obtain ⟨key,_,⟨_,rfl⟩,value,_,⟨_,rfl⟩,index,_,rfl,leafCount,_,rfl,count,_,rfl,_,_,
    ⟨⟨⟨hk,hv,hl,hc⟩,hn,hi⟩,rfl⟩,siblings,_,⟨⟨hle,-⟩,rfl⟩,rfl,rfl⟩ := h
  refine ⟨⟨hk,hv,hle ▸ hc,hn,hl,hi⟩,?_⟩
  simp only [StateWitness.bytes,hle,UInt8.ofNat_toNat,append_assoc]

lemma exact_read : Exact read optionBytes fun o => ∀ w ∈ o, w.Encodable := by
  refine Exact.of (fun _ h => reads_option h) fun bs o rest h => ?_
  obtain ⟨flag,middle,hf,hr⟩ := bind_run_ok.mp h
  obtain rfl := readU8_run_ok.mp (failingAs_run_ok.mp hf)
  split_ifs at hr with h0 h1
  · obtain ⟨rfl,rfl⟩ := pure_run_ok.mp hr
    exact ⟨by simp,by rw [h0,optionBytes]⟩
  · obtain ⟨w,_,hw,hp⟩ := bind_run_ok.mp hr
    obtain ⟨he,rfl⟩ := (exact_present _ _ _).mp hw
    obtain ⟨rfl,rfl⟩ := pure_run_ok.mp hp
    refine ⟨by simpa using he,?_⟩
    rw [h1,optionBytes,append_assoc]
  · cases (give_run_ok.mp hr).1

end StateWitness

namespace StateAbsenceProof

def raw (p : StateAbsenceProof) : Bytes :=
  absenceMagic ++ (u16Bytes 1 ++ (StateWitness.optionBytes p.lower ++ StateWitness.optionBytes p.upper))

def Encodable (p : StateAbsenceProof) : Prop :=
  (∀ w ∈ p.lower, w.Encodable) ∧ ∀ w ∈ p.upper, w.Encodable

lemma forM_eq_ok {f : StateWitness → Except StateError Unit} {o : Option StateWitness} {u : Unit} :
    o.forM f = .ok u ↔ ∀ w ∈ o, f w = .ok () := by
  cases o with
  | none => simp [Option.forM]
  | some w => simp [Option.forM]

lemma writes : Writes toBytes raw Encodable := by
  intro p bs
  simp only [toBytes,bind_eq_ok,forM_eq_ok,StateWitness.validate_eq_ok,pure_ok_iff,Encodable]
  constructor
  · rintro ⟨_,hl,_,hu,rfl⟩
    exact ⟨⟨hl,hu⟩,rfl⟩
  · rintro ⟨⟨hl,hu⟩,rfl⟩
    exact ⟨(),hl,(),hu,rfl⟩

lemma decodes : Decodes fromBytes raw Encodable := by
  intro bs p
  constructor
  · intro h
    simp only [fromBytes,bind_eq_ok,ensure_eq_ok,pure_ok_iff,Prod.exists,read,
      bind_run_ok,pure_run_ok,failingAs_run_ok,readExact_run_ok,
      check_run_ok,readU16_run_ok,StateWitness.exact_read _ _ _] at h
    obtain ⟨_,_,_,_,⟨_,_,⟨_,rfl⟩,_,_,⟨rfl,rfl⟩,_,_,rfl,_,_,⟨rfl,rfl⟩,lower,_,
      ⟨hl,rfl⟩,upper,_,⟨hu,rfl⟩,rfl,rfl⟩,_,rfl,rfl⟩ := h
    refine ⟨⟨hl,hu⟩,?_⟩
    rw [append_nil,raw]
  · rintro ⟨h,rfl⟩
    exact (fromBytes_toBytes h.1 h.2 ((writes p _).mpr ⟨h,rfl⟩)).2

end StateAbsenceProof

namespace StateValueProof

variable {p : StateValueProof}

def raw (p : StateValueProof) : Bytes := p.tag :: p.framed.raw

lemma checkWitness_eq_ok {w : StateWitness} {u : Unit} : checkWitness w = .ok u ↔ w.Encodable := by
  constructor
  · exact encodable_of_check
  · intro h
    exact ensure_of ⟨h.key,h.value,h.siblings,h.nonempty,h.leafCount,h.index⟩

lemma writes : Writes toBytes raw fun p => p.framed.Encodable := by
  intro p bs
  simp only [toBytes,bind_eq_ok,StateAbsenceProof.forM_eq_ok,checkWitness_eq_ok,
    StateAbsenceProof.writes _ _,pure_ok_iff]
  constructor
  · rintro ⟨_,_,_,_,_,⟨h,rfl⟩,rfl⟩
    exact ⟨h,rfl⟩
  · rintro ⟨h,rfl⟩
    exact ⟨(),h.1,(),h.2,_,⟨h,rfl⟩,rfl⟩

lemma unframe_eq_ok {tag : UInt8} {pf : StateAbsenceProof} (h : unframe tag pf = .ok p) :
    tag = p.tag ∧ pf = p.framed := by
  unfold unframe at h
  split_ifs at h with h0
  · cases h
    exact ⟨h0,rfl⟩
  · split at h
    · next hl hu =>
      cases h
      obtain ⟨lower,upper⟩ := pf
      cases hl
      cases hu
      exact ⟨rfl,rfl⟩
    · cases h

lemma decodes : Decodes fromBytes raw fun p => p.framed.Encodable := by
  intro bs p
  constructor
  · intro h
    cases bs with
    | nil => cases h
    | cons tag rest =>
      simp only [fromBytes,bind_eq_ok,ensure_eq_ok,StateAbsenceProof.decodes _ _] at h
      obtain ⟨_,_,pf,⟨hp,rfl⟩,hu⟩ := h
      obtain ⟨rfl,rfl⟩ := unframe_eq_ok hu
      exact ⟨hp,rfl⟩
  · rintro ⟨h,rfl⟩
    exact fromBytes_toBytes ((writes p _).mpr ⟨h,rfl⟩)

end StateValueProof
end Astrolune.State
