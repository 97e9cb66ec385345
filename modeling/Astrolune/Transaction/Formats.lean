import Astrolune.Transaction.Validator
import Astrolune.Types.Formats

namespace Astrolune
open Lib Codec Decoder Reader List

variable {bs rest : Bytes}

namespace Transaction

variable {tx : Transaction}

lemma length_encodeBytes_le {lim : Nat} (h : bs.length ≤ lim) :
    (encodeBytes bs).length ≤ lim + 5 := by
  unfold encodeBytes encodeLength
  split <;> simp <;> omega

lemma Encodable.toBytes_lt (h : tx.Encodable) : tx.toBytes.length < 2 ^ 64 := by
  have hke : (tx.accessList.flatMap encodeBytes).length ≤ _ :=
    Exact.length_flatMap_le fun key hk => length_encodeBytes_le (h.keys key hk)
  have hm := Nat.mul_le_mul_right (maxStateKeyLen + 5) h.accessList
  have hp := length_encodeBytes_le h.payload
  have hc : (encodeLength tx.accessList.length).length ≤ 5 := by
    unfold encodeLength
    split <;> simp
  rw [toBytes_length]
  simp only [maxListLen,maxStateKeyLen,maxPayload] at *
  omega

lemma validateShape_eq_ok {maxBytes : Nat} {u : Unit} :
    validateShape tx maxBytes = .ok u ↔ tx.Encodable ∧ tx.toBytes.length ≤ maxBytes := by
  rw [validateShape,ensure_eq_ok]
  constructor
  · rintro ⟨hv,hc,hk,hp,hs⟩
    refine ⟨⟨hv,hc,hk,hp⟩,?_⟩
    cases hl : tx.encodedLen with
    | none =>
      rw [hl] at hs
      cases hs
    | some n =>
      rw [hl] at hs
      exact (encodedLen_iff.mp hl).2 ▸ of_decide_eq_true hs
  · rintro ⟨h,hs⟩
    have hl := encodedLen_iff.mpr ⟨⟨h.sized,h.toBytes_lt⟩,rfl⟩
    refine ⟨h.version,h.accessList,h.keys,h.payload,?_⟩
    rw [hl]
    exact decide_eq_true hs

end Transaction

lemma Payment.decode_eq_ok {p : Payment} : Payment.decode bs = .ok p ↔
    (p.recipient ≠ Hash256.zero ∧ p.amount ≠ 0) ∧ bs = p.toBytes := by
  have ht : (ascii "ALPAY001").length = 8 := by decide
  simp only [Payment.decode,bind_eq_ok,ensure_eq_ok,failAs_eq_ok,pure_ok_iff,whole_eq_ok,readFields,
    bind_run_ok,pure_run_ok,readExact_run_ok,readFixed_run_ok,readU64_run_ok]
  constructor
  · rintro ⟨_,⟨_,hta⟩,_,⟨tag,_,⟨hl,rfl⟩,_,_,rfl,_,_,rfl,_,_,rfl,rfl,rfl⟩, _,hb,rfl⟩
    rw [take_left' hl] at hta
    refine ⟨hb,?_⟩
    rw [hta,append_nil,toBytes]
  · rintro ⟨hb,rfl⟩
    refine ⟨(),⟨?_,take_left' ht⟩,p,⟨_,_,⟨ht,rfl⟩,p.publicKey,_,rfl,p.recipient,_,rfl,
      p.amount,[],?_,rfl,rfl⟩,(),hb,rfl⟩
    · simp [toBytes,encodedLen,ht,p.publicKey.2,p.recipient.2]
    · rw [append_nil]

namespace ContractPayload

structure Keys (previous : Option Bytes) (keys : List Bytes) : Prop where
  each : ∀ key ∈ keys, key ≠ [] ∧ key.length ≤ 256
  above : ∀ before ∈ previous, ∀ key ∈ keys, before < key
  sorted : keys.Pairwise (· < ·)

def Within : ContractAction → Prop
  | .deploy code => code ≠ [] ∧ code.length ≤ maxContractCode
  | .deployTrocto source =>
    (source ≠ [] ∧ source.length ≤ maxTroctoSource) ∧ ByteArray.validateUTF8 ⟨source.toArray⟩ = true
  | .call address input keys =>
    (address ≠ Hash256.zero ∧ input.length ≤ 65536) ∧ keys.length ≤ maxContractKeys ∧ Keys none keys
  | .callTrocto address input keys =>
    (address ≠ Hash256.zero ∧ input.length = 8) ∧ keys.length ≤ maxContractKeys ∧ Keys none keys

lemma readField_run_ok {lim : Nat} (hl : lim < 2 ^ 32) {b : Bytes} :
    (readField lim).run bs = .ok (b,rest) ↔ b.length ≤ lim ∧ bs = fieldBytes b ++ rest := by
  refine readFramed_run_ok.trans (and_congr_left fun _ => ?_)
  exact ⟨And.left,fun h => ⟨h,h.trans_lt hl⟩⟩

variable {prev : Option Bytes} {keys : List Bytes} {action : ContractAction} {p : ContractPayload}

lemma keys_cons {key : Bytes} :
    Keys prev (key :: keys) ↔
      (key.length ≤ 256 ∧ key ≠ [] ∧ ∀ pre ∈ prev, pre < key) ∧ Keys (some key) keys := by
  constructor
  · rintro ⟨he,ha,hs⟩
    obtain ⟨⟨hn,hl⟩,he⟩ := forall_mem_cons.mp he
    obtain ⟨hh,hs⟩ := pairwise_cons.mp hs
    refine ⟨⟨hl,hn,fun pre hb => ha pre hb key mem_cons_self⟩,he,?_,hs⟩
    intro pre hb
    obtain rfl := Option.mem_some.mp hb
    exact hh
  · rintro ⟨⟨hl,hn,hp⟩,he,ha,hs⟩
    have hh := ha key rfl
    refine ⟨forall_mem_cons.mpr ⟨⟨hn,hl⟩,he⟩,fun pre hb => ?_,pairwise_cons.mpr ⟨hh,hs⟩⟩
    have hbe := hp pre hb
    exact forall_mem_cons.mpr ⟨hbe,fun other ho => hbe.trans (hh other ho)⟩

lemma readKeys_run_ok {count : Nat} :
    (readKeys count prev).run bs = .ok (keys,rest) ↔
      (keys.length = count ∧ Keys prev keys) ∧ bs = keys.flatMap fieldBytes ++ rest := by
  induction count generalizing bs rest prev keys with
  | zero =>
    simp only [readKeys,pure_run_ok,length_eq_zero_iff]
    constructor
    · rintro ⟨rfl,rfl⟩
      exact ⟨⟨rfl,by simp,by simp,.nil⟩,rfl⟩
    · rintro ⟨⟨rfl,_⟩,rfl⟩
      exact ⟨rfl,rfl⟩
  | succ count ih =>
    simp only [readKeys,bind_run_ok,pure_run_ok,readField_run_ok (by decide : 256 < 2 ^ 32),check_run_ok,
      ih]
    constructor
    · rintro ⟨key,_,⟨hl,rfl⟩,_,_,⟨hc,rfl⟩,keys,_,⟨⟨rfl,hk⟩,rfl⟩,rfl,rfl⟩
      refine ⟨⟨rfl,keys_cons.mpr ⟨⟨hl,hc⟩,hk⟩⟩,?_⟩
      rw [flatMap_cons,append_assoc]
    · rintro ⟨⟨hco,hk⟩,rfl⟩
      cases keys with
      | nil => cases hco
      | cons key keys =>
        obtain ⟨⟨hl,hc⟩,hk⟩ := keys_cons.mp hk
        rw [flatMap_cons,append_assoc]
        exact ⟨key,_,⟨hl,rfl⟩,(),_,⟨hc,rfl⟩,keys,rest, ⟨⟨Nat.succ.inj hco,hk⟩,rfl⟩,rfl,rfl⟩

lemma readNative_run_ok {native : Bool} : readNative.run bs = .ok (native,rest) ↔
    bs = (if native then ascii "ALCON003" else ascii "ALCON002") ++ rest := by
  constructor
  · intro h
    obtain ⟨tag,_,ht,hr⟩ := bind_run_ok.mp h
    obtain ⟨_,rfl⟩ := readExact_run_ok.mp ht
    split_ifs at hr with ho
    · obtain ⟨rfl,rfl⟩ := pure_run_ok.mp hr
      rw [ho]
      rfl
    · simp only [bind_run_ok,check_run_ok,pure_run_ok] at hr
      obtain ⟨_,_,⟨hn,rfl⟩,rfl,rfl⟩ := hr
      rw [hn]
      rfl
  · rintro rfl
    cases native <;> rfl

lemma readDeploy_run_ok {native : Bool} :
    (readDeploy native).run bs = .ok (action,rest) ↔ ∃ code, Within action ∧
      action = (if native then .deployTrocto code else .deploy code) ∧ bs = fieldBytes code ++ rest := by
  cases native with
  | false =>
    simp only [readDeploy,Bool.false_eq_true,if_false,bind_run_ok,check_run_ok,pure_run_ok,
      readField_run_ok (by decide : maxContractCode < 2 ^ 32)]
    constructor
    · rintro ⟨code,_,⟨hl,rfl⟩,_,_,⟨hn,rfl⟩,rfl,rfl⟩
      exact ⟨code,⟨hn,hl⟩,rfl,rfl⟩
    · rintro ⟨code,hw,rfl,rfl⟩
      exact ⟨code,rest,⟨hw.2,rfl⟩,(),rest,⟨hw.1,rfl⟩,rfl,rfl⟩
  | true =>
    simp only [readDeploy,if_true,bind_run_ok,check_run_ok,pure_run_ok,
      readField_run_ok (by decide : maxTroctoSource < 2 ^ 32)]
    constructor
    · rintro ⟨code,_,⟨hl,rfl⟩,_,_,⟨hn,rfl⟩,_,_,⟨ht,rfl⟩,rfl,rfl⟩
      exact ⟨code,⟨⟨hn,hl⟩,ht⟩,rfl,rfl⟩
    · rintro ⟨code,hw,rfl,rfl⟩
      obtain ⟨⟨hn,hl⟩,ht⟩ := hw
      exact ⟨code,rest,⟨hl,rfl⟩,(),rest,⟨hn,rfl⟩,(),rest,⟨ht,rfl⟩,rfl,rfl⟩

lemma within_call {native : Bool} {addr : Address} {input : Bytes} :
    Within (if native then .callTrocto addr input keys else .call addr input keys) ↔
      (addr ≠ Hash256.zero ∧ input.length ≤ 65536 ∧ (native = true → input.length = 8)) ∧
        keys.length ≤ maxContractKeys ∧ Keys none keys := by
  cases native with
  | false => simp [Within]
  | true =>
    simp only [if_true,Within,true_implies]
    refine and_congr_left fun _ => and_congr_right fun _ => ?_
    omega

lemma count_le_remaining (h : Keys none keys) :
    keys.length ≤ (keys.flatMap fieldBytes ++ rest).length / 5 := by
  have hl : keys.length * 5 ≤ (keys.flatMap fieldBytes).length := by
    refine Exact.le_length_flatMap fun key hk => ?_
    have hp := length_pos_iff.mpr (h.each key hk).1
    have hs := framed_length key
    change 5 ≤ (framed key).length
    omega
  rw [length_append]
  omega

lemma readCall_run_ok {native : Bool} :
    (readCall native).run bs = .ok (action,rest) ↔ ∃ addr input keys, Within action ∧
      action = (if native then .callTrocto addr input keys else .call addr input keys) ∧
      bs = addr.1 ++ (fieldBytes input ++ (leBytes 4 keys.length ++
        (keys.flatMap fieldBytes ++ rest))) := by
  simp only [readCall,bind_run_ok,check_run_ok,pure_run_ok,readFixed_run_ok,readU32_run_ok,
    remaining_run_ok,readKeys_run_ok,readField_run_ok (by decide : 65536 < 2 ^ 32)]
  constructor
  · rintro ⟨addr,_,rfl,_,_,⟨ha,rfl⟩,input,_,⟨hi,rfl⟩,_,_,⟨hn,rfl⟩,count,_,
      rfl,_,_,⟨_,rfl⟩,_,_,⟨⟨hm,_⟩,rfl⟩,keys,_,⟨⟨hc,hk⟩,rfl⟩,rfl,rfl⟩
    rw [← hc] at hm
    refine ⟨addr,input,keys,within_call.mpr ⟨⟨ha,hi,hn⟩,hm,hk⟩,rfl,?_⟩
    rw [u32Bytes,hc]
  · rintro ⟨addr,input,keys,hw,rfl,rfl⟩
    obtain ⟨⟨ha,hi,hn⟩,hm,hk⟩ := within_call.mp hw
    have hc : (UInt32.ofNat keys.length).toNat = keys.length :=
      UInt32.toNat_ofNat_of_lt' (hm.trans_lt (by decide))
    refine ⟨addr,_,rfl,(),_,⟨ha,rfl⟩,input,_,⟨hi,rfl⟩,(),_,⟨hn,rfl⟩,
      UInt32.ofNat keys.length,_,?_,_,_,⟨rfl,rfl⟩,(),_,⟨⟨hc.symm ▸ hm,?_⟩,rfl⟩,keys,rest,
      ⟨⟨hc.symm,hk⟩,rfl⟩,rfl,rfl⟩
    · rw [u32Bytes,hc]
    · rw [hc]
      exact count_le_remaining hk

lemma readPayload_run_ok : readPayload.run bs = .ok (p,rest) ↔
    ∃ (native : Bool) (kind : UInt8) (body : Bytes),
      bs = (if native then ascii "ALCON003" else ascii "ALCON002") ++ (p.publicKey.1 ++ ([kind] ++ body)) ∧
      (kind = 0 ∧ (readDeploy native).run body = .ok (p.action,rest) ∨
        kind = 1 ∧ (readCall native).run body = .ok (p.action,rest)) := by
  constructor
  · intro h
    simp only [readPayload,bind_run_ok,readNative_run_ok,readFixed_run_ok,readU8_run_ok] at h
    obtain ⟨native,_,rfl,pk,_,rfl,kind,body,rfl,h⟩ := h
    split_ifs at h with h0
    · simp only [bind_run_ok,pure_run_ok] at h
      obtain ⟨action,_,hr,rfl,rfl⟩ := h
      exact ⟨native,kind,body,rfl,.inl ⟨h0,hr⟩⟩
    · simp only [bind_run_ok,pure_run_ok,check_run_ok] at h
      obtain ⟨_,_,⟨h1,rfl⟩,action,_,hr,rfl,rfl⟩ := h
      exact ⟨native,kind,_,rfl,.inr ⟨h1,hr⟩⟩
  · rintro ⟨native,kind,body,rfl,hb⟩
    simp only [readPayload,bind_run_ok,readNative_run_ok,readFixed_run_ok,readU8_run_ok]
    refine ⟨native,_,rfl,p.publicKey,_,rfl,kind,body,rfl,?_⟩
    rcases hb with ⟨rfl,hr⟩ | ⟨rfl,hr⟩
    · exact bind_run_ok.mpr ⟨p.action,rest,hr,rfl⟩
    · exact bind_run_ok.mpr ⟨(),body,check_run_ok.mpr ⟨rfl,rfl⟩, bind_run_ok.mpr ⟨p.action,rest,hr,rfl⟩⟩

lemma exact_payload : Exact readPayload toBytes fun p => Within p.action := by
  rintro bs ⟨pk,action⟩ rest
  simp only [readPayload_run_ok,readDeploy_run_ok,readCall_run_ok]
  constructor
  · rintro ⟨native,kind,_,rfl,⟨rfl,code,hw,rfl,rfl⟩ | ⟨rfl,addr,input,keys,hw,rfl,rfl⟩⟩
    · refine ⟨hw,?_⟩
      cases native <;> simp [toBytes,ContractPayload.native,actionBytes]
    · refine ⟨hw,?_⟩
      cases native <;> simp [toBytes,ContractPayload.native,actionBytes]
  · rintro ⟨hw,rfl⟩
    refine ⟨native action,(actionBytes action).headD 0,(actionBytes action).tail ++ rest,?_,?_⟩
    · cases action <;> simp [toBytes,actionBytes]
    cases action with
    | deploy code => exact .inl ⟨rfl,code,hw,rfl,rfl⟩
    | deployTrocto source => exact .inl ⟨rfl,source,hw,rfl,rfl⟩
    | call addr input keys =>
      refine .inr ⟨rfl,addr,input,keys,hw,rfl,?_⟩
      simp [actionBytes]
    | callTrocto addr input keys =>
      refine .inr ⟨rfl,addr,input,keys,hw,rfl,?_⟩
      simp [actionBytes]

lemma length_toBytes_le (h : Within p.action) : p.toBytes.length ≤ maxContractCode + 45 := by
  have ht : (if native p.action then ascii "ALCON003" else ascii "ALCON002").length = 8 := by
    split <;> decide
  have hf : ∀ b : Bytes, (fieldBytes b).length = 4 + b.length := framed_length
  have hke : ∀ {keys : List Bytes}, Keys none keys → (keys.flatMap fieldBytes).length ≤ keys.length * 260 :=
    fun hke => Exact.length_flatMap_le fun key hk => by
      have hk := (hke.each key hk).2
      rw [hf]
      omega
  obtain ⟨pk,action⟩ := p
  rw [toBytes,length_append,ht,length_append,pk.2]
  cases action with
  | deploy code =>
    simp only [Within,actionBytes,length_cons,hf] at h ⊢
    omega
  | deployTrocto source =>
    simp only [Within,actionBytes,length_cons,hf,maxTroctoSource,maxContractCode] at h ⊢
    omega
  | call addr input keys =>
    have hs := hke h.2.2
    simp only [Within,actionBytes,length_cons,length_append,hf,leBytes_length,addr.2,
      maxContractKeys,maxContractCode] at h ⊢
    omega
  | callTrocto addr input keys =>
    have hs := hke h.2.2
    simp only [Within,actionBytes,length_cons,length_append,hf,leBytes_length,addr.2,
      maxContractKeys,maxContractCode] at h ⊢
    omega

lemma decode_eq_ok : decode bs = .ok p ↔ Within p.action ∧ bs = p.toBytes := by
  rw [decode,failAs_eq_ok,decodeInner]
  simp only [bind_eq_ok,ensure_eq_ok,exact_payload.whole]
  constructor
  · rintro ⟨_,_,h⟩
    exact h
  · rintro ⟨hw,rfl⟩
    exact ⟨(),length_toBytes_le hw,hw,rfl⟩

end ContractPayload

/-- Transactions and their payloads have one encoding each, and the length that is predicted is the
length that is written. -/
theorem transaction_codec_canonical :
    (∀ bytes tx, Transaction.decode bytes = .ok tx ↔ tx.Encodable ∧ bytes = tx.toBytes) ∧
    (∀ tx tx' : Transaction, tx.Sized → tx'.Sized → tx.encodeUnsigned = tx'.encodeUnsigned →
      tx = { tx' with signature := tx.signature }) ∧
    (∀ (tx : Transaction) n, tx.encodedLen = some n ↔
      (tx.Sized ∧ tx.toBytes.length < 2 ^ 64) ∧ n = tx.toBytes.length) ∧
    (∀ tx maxBytes, validateShape tx maxBytes = .ok () ↔ tx.Encodable ∧ tx.toBytes.length ≤ maxBytes) ∧
    (∀ bytes p, Payment.decode bytes = .ok p ↔
      (p.recipient ≠ Hash256.zero ∧ p.amount ≠ 0) ∧ bytes = p.toBytes) ∧
    (∀ bytes p, ContractPayload.decode bytes = .ok p ↔
      ContractPayload.Within p.action ∧ bytes = p.toBytes) :=
  ⟨fun _ _ => Transaction.decode_eq_ok,fun _ _ => Transaction.encodeUnsigned_injective,
    fun _ _ => Transaction.encodedLen_iff,fun _ _ => Transaction.validateShape_eq_ok,
    fun _ _ => Payment.decode_eq_ok,fun _ _ => ContractPayload.decode_eq_ok⟩

end Astrolune
