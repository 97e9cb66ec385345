import Astrolune.Codec.Exact
import Astrolune.Types.Block

namespace Astrolune.Codec
open Lib Decoder Reader

variable {bs rest : Bytes}

lemma decodeLongLength_run_ok {first : UInt8} {n : Nat} :
    (decodeLongLength first).run bs = .ok (n,rest) ↔
      first = 0x80 ∧ (128 ≤ n ∧ n ≤ maxListLen) ∧ bs = leBytes 4 n ++ rest := by
  simp only [decodeLongLength,bind_run_ok,check_run_ok,pure_run_ok,readU32_run_ok]
  constructor
  · rintro ⟨_,_,⟨rfl,rfl⟩,value,_,rfl,_,_,⟨hl,rfl⟩,_,_,⟨hm,rfl⟩,rfl,rfl⟩
    exact ⟨rfl,⟨hl,hm⟩,rfl⟩
  · rintro ⟨rfl,⟨hl,hm⟩,rfl⟩
    have hn : (UInt32.ofNat n).toNat = n := by
      refine UInt32.toNat_ofNat_of_lt' (Nat.lt_of_le_of_lt hm ?_)
      decide
    refine ⟨(),_,⟨rfl,rfl⟩,UInt32.ofNat n,rest,?_,(),_,⟨hn.symm ▸ hl,rfl⟩,(),_,
      ⟨hn.symm ▸ hm,rfl⟩,hn,rfl⟩
    rw [u32Bytes,hn]

lemma decodeLength_run_ok {n : Nat} :
    decodeLength.run bs = .ok (n,rest) ↔ n ≤ maxListLen ∧ bs = encodeLength n ++ rest := by
  constructor
  · intro h
    obtain ⟨first,middle,hf,hr⟩ := bind_run_ok.mp h
    obtain rfl := readU8_run_ok.mp hf
    split_ifs at hr with hs
    · obtain ⟨rfl,rfl⟩ := pure_run_ok.mp hr
      refine ⟨(Nat.le_of_lt hs).trans (by decide),?_⟩
      rw [encodeLength,if_pos hs,UInt8.ofNat_toNat]
    · obtain ⟨rfl,⟨hl,hm⟩,rfl⟩ := decodeLongLength_run_ok.mp hr
      refine ⟨hm,?_⟩
      rw [encodeLength,if_neg (Nat.not_lt.mpr hl)]
      rfl
  · rintro ⟨hm,rfl⟩
    exact reads_length hm rest

lemma decodeBytes_run_ok {lim : Nat} {b : Bytes} : (decodeBytes lim).run bs = .ok (b,rest) ↔
      (b.length ≤ lim ∧ b.length ≤ maxListLen) ∧ bs = encodeBytes b ++ rest := by
  simp only [decodeBytes,bind_run_ok,decodeLength_run_ok,check_run_ok,
    readExact_run_ok,encodeBytes,List.append_assoc]
  constructor
  · rintro ⟨_,_,⟨hm,rfl⟩,_,_,⟨hl,rfl⟩,rfl,rfl⟩
    exact ⟨⟨hl,hm⟩,rfl⟩
  · rintro ⟨⟨hl,hm⟩,rfl⟩
    exact ⟨b.length,_,⟨hm,rfl⟩,(),_,⟨hl,rfl⟩,rfl,rfl⟩

end Astrolune.Codec

namespace Astrolune
open Lib Codec Decoder Reader List

variable {bs rest : Bytes}

lemma readResources_run_ok {r : Resources} :
    readResources.run bs = .ok (r,rest) ↔ bs = r.bytes ++ rest := by
  constructor
  · intro h
    simp only [readResources,bind_run_ok,pure_run_ok,readU64_run_ok] at h
    obtain ⟨_,_,rfl,_,_,rfl,_,_,rfl,_,_,rfl,rfl,rfl⟩ := h
    simp only [Resources.bytes,append_assoc]
  · rintro rfl
    exact reads_resources r rest

@[simp] lemma Resources.bytes_length (r : Resources) : r.bytes.length = 32 := by
  simp [Resources.bytes]

namespace BlockHeader

def decode (bytes : Bytes) : Except DecodeError BlockHeader := whole read bytes

lemma decode_eq_ok {h : BlockHeader} : decode bs = .ok h ↔ bs = h.canonicalBytes := by
  rw [decode,whole_eq_ok]
  constructor
  · intro hr
    simp only [read,bind_run_ok,pure_run_ok,readU64_run_ok, readFixed_run_ok,readResources_run_ok] at hr
    obtain ⟨_,_,rfl,_,_,rfl,_,_,rfl,_,_,rfl,_,_,rfl,_,_,rfl,_,_,rfl,rfl,rfl⟩ := hr
    simp only [canonicalBytes,append_nil]
  · rintro rfl
    have hr := reads_header h []
    rwa [append_nil] at hr

end BlockHeader

namespace Transaction

lemma TransactionLane.decode_eq_ok {byte : UInt8} {lane : TransactionLane} :
    TransactionLane.decode byte = .ok lane ↔ byte = lane.byte := by
  constructor
  · intro h
    unfold TransactionLane.decode at h
    split_ifs at h with h0 h1 h2 <;> cases h
    exacts [h0,h1,h2]
  · rintro rfl
    exact lane.decode_byte

variable {keys : List StateKey} {tx tx' : Transaction}

lemma readKeys_run_ok {count : Nat} :
    (readKeys count).run bs = .ok (keys,rest) ↔
      (keys.length = count ∧ ∀ key ∈ keys, key.length ≤ maxStateKeyLen ∧ key.length ≤ maxListLen) ∧
        bs = keys.flatMap encodeBytes ++ rest := by
  have hk : Exact (decodeBytes maxStateKeyLen) encodeBytes
      fun key => key.length ≤ maxStateKeyLen ∧ key.length ≤ maxListLen :=
    fun _ _ _ => decodeBytes_run_ok
  exact hk.many count bs keys rest

lemma of_readEnvelope {count : Nat} {resourceLimit resourcePrices : Resources} {pl : Bytes}
    {sig : Fixed 64}
    (h : (readEnvelope count).run bs = .ok ((resourceLimit,resourcePrices,pl,sig),rest)) :
    pl.length ≤ maxPayload ∧ ∃ keys : List StateKey, keys.length = count ∧
      (∀ key ∈ keys, key.length ≤ maxStateKeyLen) ∧
      bs = keys.flatMap encodeBytes ++ (resourceLimit.bytes ++ (resourcePrices.bytes ++
        (encodeBytes pl ++ sig.1))) := by
  simp only [readEnvelope,bind_run_ok,pure_run_ok,readKeys_run_ok,
    readResources_run_ok,decodeBytes_run_ok,readFixed_run_ok,finish_run_ok,
    Prod.mk.injEq] at h
  obtain ⟨keys,_,⟨⟨hc,hke⟩,rfl⟩,_,_,rfl,_,_,rfl,_,_,⟨⟨hp,-⟩,rfl⟩,_,_,rfl,
    _,_,⟨rfl,rfl⟩,⟨rfl,rfl,rfl,rfl⟩,rfl⟩ := h
  refine ⟨hp,keys,hc,fun key hk => (hke key hk).1,?_⟩
  rw [append_nil]

lemma decode_eq_ok : decode bs = .ok tx ↔ tx.Encodable ∧ bs = tx.toBytes := by
  constructor
  · intro h
    simp only [decode,bind_eq_ok,pure_ok_iff,Prod.exists] at h
    obtain ⟨tx,last,h,rfl⟩ := h
    simp only [read,bind_run_ok,pure_run_ok,check_run_ok,
      give_run_ok,readExact_run_ok,readFixed_run_ok,readU32_run_ok,
      readU64_run_ok,readU8_run_ok,remaining_run_ok,
      TransactionLane.decode_eq_ok,decodeLength_run_ok,StateT.run_get,pure_ok_iff,
      Prod.mk.injEq,Prod.exists] at h
    obtain ⟨_,_,⟨_,rfl⟩,_,_,⟨rfl,rfl⟩,version,_,rfl,_,_,⟨hv,rfl⟩,chainId,_,rfl,
      sender,_,rfl,nonce,_,rfl,expiresAt,_,rfl,_,_,rfl,lane,_,⟨rfl,rfl⟩,count,_,
      ⟨hc,rfl⟩,_,_,⟨_,rfl⟩,_,_,⟨_,rfl⟩,_,_,⟨_,rfl⟩,_,_,⟨rfl,rfl⟩,resourceLimit,
      resourcePrices,payload,signature,_,he,accessList,_,_,⟨ha,rfl⟩,rfl,rfl⟩ := h
    obtain ⟨hp,keys,hke,hl,rfl⟩ := of_readEnvelope he
    -- the second walk over the keys reads what the first one read
    have hs : ∀ after, (readKeys count).run (keys.flatMap encodeBytes ++ after) = .ok (keys,after) :=
      fun after => readKeys_run_ok.mpr ⟨⟨hke,fun key hk =>
        ⟨hl key hk,(hl key hk).trans (by decide)⟩⟩,rfl⟩
    obtain ⟨rfl,-⟩ := Prod.mk.inj (Except.ok.inj ((hs _).symm.trans ha))
    refine ⟨⟨hv,hke ▸ hc,hl,hp⟩,?_⟩
    simp only [toBytes,encodeUnsigned,hke,append_assoc]
  · rintro ⟨ht,rfl⟩
    exact decode_toBytes ht

lemma Encodable.sized (h : tx.Encodable) : tx.Sized :=
  ⟨h.accessList.trans_lt (by decide),fun key hk => (h.keys key hk).trans_lt (by decide),
    h.payload.trans_lt (by decide)⟩

lemma encodeLength_append_inj {n m : Nat} {x y : Bytes} (hn : n < 2 ^ 32) (hm : m < 2 ^ 32)
    (h : encodeLength n ++ x = encodeLength m ++ y) : n = m ∧ x = y := by
  -- a first byte below 128 is a short length, and the marker of the long ones is not
  have hs : ∀ k < 128, (UInt8.ofNat k).toNat = k :=
    fun k hk => UInt8.toNat_ofNat_of_lt' (hk.trans (by decide))
  unfold encodeLength at h
  split_ifs at h with hn' hm' hm'
  · obtain ⟨hh,ht⟩ := cons.inj h
    refine ⟨?_,ht⟩
    rw [← hs n hn',hh,hs m hm']
  · have hh := congrArg UInt8.toNat (cons.inj h).1
    rw [hs n hn'] at hh
    exact absurd hh (Nat.ne_of_lt hn')
  · have hh := congrArg UInt8.toNat (cons.inj h).1
    rw [hs m hm'] at hh
    exact absurd hh.symm (Nat.ne_of_lt hm')
  · obtain ⟨hd,ht⟩ := append_inj (cons.inj h).2 (by simp)
    exact ⟨leBytes_injective hn hm hd,ht⟩

lemma encodeBytes_append_inj {a b x y : Bytes} (ha : a.length < 2 ^ 32) (hb : b.length < 2 ^ 32)
    (h : encodeBytes a ++ x = encodeBytes b ++ y) : a = b ∧ x = y := by
  rw [encodeBytes,encodeBytes,append_assoc,append_assoc] at h
  obtain ⟨hl,hr⟩ := encodeLength_append_inj ha hb h
  exact append_inj hr hl

lemma flatMap_encodeBytes_append_inj {keys' : List StateKey} {x y : Bytes}
    (hl : keys.length = keys'.length) (hke : ∀ key ∈ keys, key.length < 2 ^ 32)
    (hke' : ∀ key ∈ keys', key.length < 2 ^ 32)
    (h : keys.flatMap encodeBytes ++ x = keys'.flatMap encodeBytes ++ y) : keys = keys' ∧ x = y := by
  induction keys generalizing keys' with
  | nil =>
    obtain rfl := length_eq_zero_iff.mp hl.symm
    exact ⟨rfl,h⟩
  | cons key keys ih =>
    cases keys' with
    | nil => cases hl
    | cons key' keys' =>
      obtain ⟨hk,hr⟩ := forall_mem_cons.mp hke
      obtain ⟨hk',hr'⟩ := forall_mem_cons.mp hke'
      rw [flatMap_cons,flatMap_cons,append_assoc,append_assoc] at h
      obtain ⟨rfl,ha⟩ := encodeBytes_append_inj hk hk' h
      obtain ⟨rfl,hx⟩ := ih (Nat.succ.inj hl) hr hr' ha
      exact ⟨rfl,hx⟩

lemma encodeUnsigned_injective (hs : tx.Sized) (hs' : tx'.Sized)
    (h : tx.encodeUnsigned = tx'.encodeUnsigned) : tx = { tx' with signature := tx.signature } := by
  obtain ⟨_,h⟩ := append_inj h rfl
  obtain ⟨hv,h⟩ := append_inj h (by simp)
  obtain ⟨hc,h⟩ := append_inj h (by simp)
  obtain ⟨hse,h⟩ := append_inj h (by rw [tx.sender.2,tx'.sender.2])
  obtain ⟨hn,h⟩ := append_inj h (by simp)
  obtain ⟨he,h⟩ := append_inj h (by simp)
  obtain ⟨hl,h⟩ := append_inj h rfl
  obtain ⟨hco,h⟩ := encodeLength_append_inj hs.accessList hs'.accessList h
  obtain ⟨hk,h⟩ := flatMap_encodeBytes_append_inj hco hs.keys hs'.keys h
  obtain ⟨hli,h⟩ := append_inj h (by simp)
  obtain ⟨hpr,h⟩ := append_inj h (by simp)
  have hp : tx.payload = tx'.payload := by
    refine (encodeBytes_append_inj hs.payload hs'.payload (x := []) (y := []) ?_).1
    rw [h]
  have hsa : tx.lane = tx'.lane := by
    have hd := tx.lane.decode_byte
    rw [(cons.inj hl).1,tx'.lane.decode_byte] at hd
    exact (Except.ok.inj hd).symm
  have hres : ∀ {r r' : Resources}, r.bytes = r'.bytes → r = r' := by
    intro r r' hr
    have hre := reads_resources r []
    rw [hr,reads_resources r' []] at hre
    cases hre
    rfl
  obtain ⟨version,expiresAt,lane,prices,chainId,sender,nonce,accessList,lim,pl,_⟩ := tx
  simp only [Transaction.mk.injEq,and_true]
  exact ⟨u32Bytes_injective hv,u64Bytes_injective he,hsa,hres hpr,
    u32Bytes_injective hc,Subtype.ext hse,u64Bytes_injective hn,hk,hres hli,
    hp⟩

lemma toBytes_injective (hs : tx.Sized) (hs' : tx'.Sized)
    (h : tx.toBytes = tx'.toBytes) : tx = tx' := by
  obtain ⟨hu,hsi⟩ := append_inj' h (by rw [tx.signature.2,tx'.signature.2])
  rw [encodeUnsigned_injective hs hs' hu,Subtype.ext hsi]

end Transaction
end Astrolune
