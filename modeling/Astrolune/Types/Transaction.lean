import Astrolune.Codec.Reads
import Astrolune.Types.Header

namespace Astrolune.Codec
open Lib Decoder Reader

def maxPayload : Nat := 2 ^ 20
def maxListLen : Nat := 2 ^ 20
def maxStateKeyLen : Nat := 256

def encodeLength (n : Nat) : Bytes := if n < 128 then [UInt8.ofNat n] else 0x80 :: leBytes 4 n

def encodeBytes (bytes : Bytes) : Bytes := encodeLength bytes.length ++ bytes

def decodeLongLength (first : UInt8) : Decoder Nat := do
  check .nonCanonical (first = 0x80)
  let value ← readU32
  check .nonCanonical (128 ≤ value.toNat)
  check .limitExceeded (value.toNat ≤ maxListLen)
  return value.toNat

def decodeLength : Decoder Nat := do
  let first ← readU8
  if first.toNat < 128 then return first.toNat else decodeLongLength first

def decodeBytes (limit : Nat) : Decoder Bytes := do
  let length ← decodeLength
  check .limitExceeded (length ≤ limit)
  readExact length

lemma reads_longLength {n : Nat} (hlo : 128 ≤ n) (h : n ≤ maxListLen) :
    Reads (decodeLongLength 0x80) (leBytes 4 n) n := by
  have hv : (UInt32.ofNat n).toNat = n := by
    simp only [maxListLen] at h
    simp only [UInt32.toNat_ofNat']
    omega
  have hd : leBytes 4 n = u32Bytes (UInt32.ofNat n) := by rw [u32Bytes,hv]
  have hr := Reads.readU32 (UInt32.ofNat n)
  rw [← hd] at hr
  refine Reads.after rfl (hr.bind (y := []) ?_ |> (List.append_nil (leBytes 4 n) ▸ ·))
  have hl : Reads (pure (UInt32.ofNat n).toNat : Decoder Nat) [] n := by
    rw [hv]
    exact Reads.pure
  exact Reads.after (hv.symm ▸ hlo) (Reads.after (hv.symm ▸ h) hl)

lemma reads_length {n : Nat} (h : n ≤ maxListLen) : Reads decodeLength (encodeLength n) n := by
  unfold encodeLength
  split_ifs with hn
  · have hb : (UInt8.ofNat n).toNat = n := by
      simp only [UInt8.toNat_ofNat']
      omega
    refine (Reads.readU8 (UInt8.ofNat n)).bind (y := []) ?_
    simp only [hb,if_pos hn]
    exact Reads.pure
  · refine (Reads.readU8 0x80).bind (y := leBytes 4 n) ?_
    exact reads_longLength (not_lt.mp hn) h

lemma reads_bytes {lim : Nat} {bs : Bytes} (h : bs.length ≤ lim)
    (hl : bs.length ≤ maxListLen) : Reads (decodeBytes lim) (encodeBytes bs) bs :=
  (reads_length hl).bind ((Reads.check h).bind_nil (Reads.readExact rfl))

end Astrolune.Codec

namespace Astrolune
open Lib Codec Decoder Reader List

abbrev StateKey := Bytes
abbrev Address := Fixed 32

inductive TransactionLane where
  | payments
  | contracts
  | system
  deriving DecidableEq

def TransactionLane.byte : TransactionLane → UInt8
  | .payments => 0
  | .contracts => 1
  | .system => 2

def TransactionLane.decode (byte : UInt8) : Except DecodeError TransactionLane :=
  if byte = 0 then .ok .payments
  else if byte = 1 then .ok .contracts
  else if byte = 2 then .ok .system
  else .error .unsupported

lemma TransactionLane.decode_byte (lane : TransactionLane) : decode lane.byte = .ok lane := by
  cases lane <;> rfl

structure Transaction where
  version : UInt32
  expiresAt : UInt64
  lane : TransactionLane
  resourcePrices : Resources
  chainId : UInt32
  sender : Address
  nonce : UInt64
  accessList : List StateKey
  resourceLimit : Resources
  payload : Bytes
  signature : Fixed 64
  deriving DecidableEq

def transactionVersion : UInt32 := 1

def readResources : Decoder Resources := do
  let compute ← readU64
  let memory ← readU64
  let io ← readU64
  let bandwidth ← readU64
  return { compute, memory, io, bandwidth }

lemma reads_resources (r : Resources) : Reads readResources r.bytes r :=
  (Reads.readU64 _).bind ((Reads.readU64 _).bind ((Reads.readU64 _).bind (Reads.readU64 _).bind_pure))

namespace Transaction

def encodeUnsigned (tx : Transaction) : Bytes :=
  ascii "ALTX" ++ (u32Bytes tx.version ++ (u32Bytes tx.chainId ++ (tx.sender.1 ++
    (u64Bytes tx.nonce ++ (u64Bytes tx.expiresAt ++ ([tx.lane.byte] ++
      (encodeLength tx.accessList.length ++ (tx.accessList.flatMap encodeBytes ++
        (tx.resourceLimit.bytes ++ (tx.resourcePrices.bytes ++ encodeBytes tx.payload))))))))))

def toBytes (tx : Transaction) : Bytes := tx.encodeUnsigned ++ tx.signature.1

def readKeys (count : Nat) : Decoder (List StateKey) := many (decodeBytes maxStateKeyLen) count

/-- What `decode` reads after the length of the access list. The keys are walked over here and
only read into the result once the whole envelope has been checked. -/
def readEnvelope (count : Nat) : Decoder (Resources × Resources × Bytes × Fixed 64) := do
  let _ ← readKeys count
  let resourceLimit ← readResources
  let resourcePrices ← readResources
  let payload ← decodeBytes maxPayload
  let signature ← readFixed 64
  finish
  return (resourceLimit, resourcePrices, payload, signature)

def read : Decoder Transaction := do
  let magic ← readExact 4
  check .unsupported (magic = ascii "ALTX")
  let version ← readU32
  check .unsupported (version = transactionVersion)
  let chainId ← readU32
  let sender ← readFixed 32
  let nonce ← readU64
  let expiresAt ← readU64
  let tag ← readU8
  let lane ← give (TransactionLane.decode tag)
  let count ← decodeLength
  check .limitExceeded (count ≤ maxListLen)
  let remaining ← remaining
  check .truncated (count ≤ remaining)
  let accessDecoder ← get
  let (resourceLimit, resourcePrices, payload, signature) ← readEnvelope count
  let (accessList, _) ← give ((readKeys count).run accessDecoder)
  return { version, expiresAt, lane, resourcePrices, chainId, sender, nonce, accessList,
           resourceLimit, payload, signature }

def decode (bytes : Bytes) : Except DecodeError Transaction := do
  let (tx, _) ← read.run bytes
  return tx

structure Encodable (tx : Transaction) : Prop where
  version : tx.version = transactionVersion
  accessList : tx.accessList.length ≤ maxListLen
  keys : ∀ key ∈ tx.accessList, key.length ≤ maxStateKeyLen
  payload : tx.payload.length ≤ maxPayload

variable {tx : Transaction}

lemma reads_keys (h : tx.Encodable) :
    Reads (readKeys tx.accessList.length) (tx.accessList.flatMap encodeBytes) tx.accessList :=
  Reads.many fun key hk => reads_bytes (h.keys key hk) ((h.keys key hk).trans (by decide))

lemma run_readEnvelope (h : tx.Encodable) :
    (readEnvelope tx.accessList.length).run (tx.accessList.flatMap encodeBytes ++
      (tx.resourceLimit.bytes ++ (tx.resourcePrices.bytes ++ (encodeBytes tx.payload ++
        tx.signature.1)))) =
      .ok ((tx.resourceLimit,tx.resourcePrices,tx.payload,tx.signature),[]) := by
  have hp := reads_bytes h.payload h.payload
  simp only [readEnvelope,StateT.run_bind,reads_keys h _,reads_resources _ _,hp _,
    run_readFixed_last,run_finish,ok_bind,StateT.run_pure,pure_eq_ok]

lemma length_le_flatMap_encodeBytes (keys : List StateKey) :
    keys.length ≤ (keys.flatMap encodeBytes).length := by
  induction keys with
  | nil => simp
  | cons key keys ih =>
    have hp : 1 ≤ (encodeBytes key).length := by
      unfold encodeBytes encodeLength
      split <;> simp
    simp only [flatMap_cons,length_append,length_cons]
    omega

lemma decode_toBytes (h : tx.Encodable) : decode tx.toBytes = .ok tx := by
  have hm : (ascii "ALTX").length = 4 := by decide
  have hf := length_le_flatMap_encodeBytes tx.accessList
  have hr : tx.accessList.length ≤ (tx.accessList.flatMap encodeBytes ++
      (tx.resourceLimit.bytes ++ (tx.resourcePrices.bytes ++ (encodeBytes tx.payload ++
        tx.signature.1)))).length := by
    simp only [length_append]
    omega
  unfold decode read toBytes encodeUnsigned
  simp only [append_assoc]
  rw [(Reads.readExact hm).run_bind,Reads.run_check rfl,(Reads.readU32 _).run_bind,
    Reads.run_check h.version,(Reads.readU32 _).run_bind,(Reads.readFixed _).run_bind,
    (Reads.readU64 _).run_bind,(Reads.readU64 _).run_bind,(Reads.readU8 _).run_bind,
    (Reads.give tx.lane.decode_byte).run_bind_nil,(reads_length h.accessList).run_bind,
    Reads.run_check h.accessList,StateT.run_bind,run_remaining,ok_bind,
    Reads.run_check hr,StateT.run_bind,StateT.run_get,pure_eq_ok,ok_bind,
    StateT.run_bind,run_readEnvelope h,ok_bind,(Reads.give (reads_keys h _)).run_bind_nil]
  rfl

end Transaction
end Astrolune
