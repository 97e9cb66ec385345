import Astrolune.Lib.Merkle
import Astrolune.Types.Transaction

namespace Astrolune
open Lib Codec Decoder Reader List

structure Block where
  header : BlockHeader
  transactions : List Transaction
  deriving DecidableEq

structure ExecutionReceipt where
  transaction : Hash256
  succeeded : Bool
  resources : Resources
  outputRoot : Hash256
  deriving DecidableEq

namespace Resources

def zero : Resources := ⟨0, 0, 0, 0⟩

def fitsIn (r other : Resources) : Prop :=
  r.compute ≤ other.compute ∧ r.memory ≤ other.memory ∧ r.io ≤ other.io ∧
    r.bandwidth ≤ other.bandwidth

instance (r other : Resources) : Decidable (r.fitsIn other) := inferInstanceAs (Decidable (_ ∧ _))

def checkedAddU64 (a b : UInt64) : Option UInt64 :=
  if a.toNat + b.toNat < 2 ^ 64 then some (a + b) else none

def checkedAdd (r other : Resources) : Option Resources := do
  let compute ← checkedAddU64 r.compute other.compute
  let memory ← checkedAddU64 r.memory other.memory
  let io ← checkedAddU64 r.io other.io
  let bandwidth ← checkedAddU64 r.bandwidth other.bandwidth
  return { compute, memory, io, bandwidth }

def checkedSubU64 (a b : UInt64) : Option UInt64 := if b ≤ a then some (a - b) else none

def checkedMulU64 (a b : UInt64) : Option UInt64 :=
  if a.toNat * b.toNat < 2 ^ 64 then some (a * b) else none

def checkedCost (r prices : Resources) : Option UInt64 := do
  let compute ← checkedMulU64 r.compute prices.compute
  let compute ← checkedAddU64 compute (← checkedMulU64 r.memory prices.memory)
  let compute ← checkedAddU64 compute (← checkedMulU64 r.io prices.io)
  checkedAddU64 compute (← checkedMulU64 r.bandwidth prices.bandwidth)

def cost (r prices : Resources) : Nat :=
  r.compute.toNat * prices.compute.toNat + r.memory.toNat * prices.memory.toNat +
    r.io.toNat * prices.io.toNat + r.bandwidth.toNat * prices.bandwidth.toNat

end Resources

namespace ExecutionReceipt

def canonicalBytes (r : ExecutionReceipt) : Bytes :=
  r.transaction.1 ++ ([if r.succeeded then 1 else 0] ++ (r.resources.bytes ++ r.outputRoot.1))

def commitment (H : Hasher) (r : ExecutionReceipt) : Hash256 :=
  domainHash H (ascii "astrolune.receipt.v1") r.canonicalBytes

def readFlag (byte : UInt8) : Except DecodeError Bool :=
  if byte = 0 then .ok false else if byte = 1 then .ok true else .error .nonCanonical

def read : Decoder ExecutionReceipt := do
  let transaction ← readFixed 32
  let byte ← readU8
  let succeeded ← give (readFlag byte)
  let resources ← readResources
  let outputRoot ← readFixed 32
  return { transaction, succeeded, resources, outputRoot }

@[simp] lemma canonicalBytes_length (r : ExecutionReceipt) : r.canonicalBytes.length = 97 := by
  simp [canonicalBytes,Resources.bytes,r.transaction.2,r.outputRoot.2]

lemma reads_receipt (r : ExecutionReceipt) : Reads read r.canonicalBytes r := by
  have hf : readFlag (if r.succeeded then 1 else 0) = .ok r.succeeded := by
    cases r.succeeded <;> rfl
  exact (Reads.readFixed _).bind ((Reads.readU8 _).bind ((Reads.give hf).bind_nil
    ((reads_resources _).bind (Reads.readFixed _).bind_pure)))

end ExecutionReceipt

namespace BlockHeader

def read : Decoder BlockHeader := do
  let height ← readU64
  let parent ← readFixed 32
  let transactionsRoot ← readFixed 32
  let stateRoot ← readFixed 32
  let receiptsRoot ← readFixed 32
  let committeeRoot ← readFixed 32
  let capacity ← readResources
  return { height, parent, transactionsRoot, stateRoot, receiptsRoot, committeeRoot, capacity }

@[simp] lemma canonicalBytes_length (h : BlockHeader) : h.canonicalBytes.length = 200 := by
  simp [canonicalBytes,Resources.bytes,h.parent.2,h.transactionsRoot.2,h.stateRoot.2,
    h.receiptsRoot.2,h.committeeRoot.2]

lemma reads_header (h : BlockHeader) : Reads read h.canonicalBytes h :=
  (Reads.readU64 _).bind ((Reads.readFixed _).bind ((Reads.readFixed _).bind
    ((Reads.readFixed _).bind ((Reads.readFixed _).bind ((Reads.readFixed _).bind
      (reads_resources _).bind_pure)))))

end BlockHeader

def interiorHash (H : Hasher) (left right : Hash256) : Hash256 :=
  H ([1] ++ (left.1 ++ (right.1 ++ [0, 0, 0, 0])))

def merkleRoot (H : Hasher) (leaves : List Hash256) : Hash256 :=
  (collapse (interiorHash H) leaves.length leaves).getD Hash256.zero

namespace Transaction

def computeTxId (H : Hasher) (tx : Transaction) : Hash256 :=
  domainHash H (ascii "astrolune.tx.id.v1") tx.toBytes

def signingHash (H : Hasher) (tx : Transaction) : Hash256 :=
  domainHash H (ascii "astrolune.tx.v1") tx.encodeUnsigned

def prefixLen (length : Nat) : Option Nat :=
  if length < 2 ^ 32 then some (if length < 128 then 1 else 5) else none

def addFramed (size length : Nat) : Option Nat := do
  let size ← checkedAdd64 size (← prefixLen length)
  checkedAdd64 size length

def encodedLen (tx : Transaction) : Option Nat := do
  let size ← checkedAdd64 (8 + 4 + 32 + 8 + 8 + 1 + 32 + 32 + 64)
    (← prefixLen tx.accessList.length)
  let size ← tx.accessList.foldlM (fun size key => addFramed size key.length) size
  addFramed size tx.payload.length

def estimateEncodedLen (tx : Transaction) : Nat := tx.encodedLen.getD (2 ^ 64 - 1)

lemma prefixLen_iff {n k : Nat} : prefixLen n = some k ↔ n < 2 ^ 32 ∧ k = (encodeLength n).length := by
  unfold prefixLen encodeLength
  constructor
  · intro h
    split_ifs at h ⊢ <;> simp_all
  · rintro ⟨hn,rfl⟩
    rw [if_pos hn]
    split <;> simp

lemma addFramed_iff {bs : Bytes} {size next : Nat} : addFramed size bs.length = some next ↔
    (bs.length < 2 ^ 32 ∧ next < 2 ^ 64) ∧ next = size + (encodeBytes bs).length := by
  simp only [addFramed,Option.bind_eq_bind,Option.bind_eq_some_iff,checkedAdd64_eq_some,prefixLen_iff,
    encodeBytes,length_append]
  constructor
  · rintro ⟨_,⟨hb,rfl⟩,_,⟨rfl,_⟩,rfl,hn⟩
    exact ⟨⟨hb,hn⟩,Nat.add_assoc _ _ _⟩
  · rintro ⟨⟨hb,hn⟩,rfl⟩
    exact ⟨_,⟨hb,rfl⟩,_,⟨rfl,by omega⟩,by omega,hn⟩

lemma foldlM_addFramed_iff {keys : List StateKey} {size tot : Nat} (hs : size < 2 ^ 64) :
    keys.foldlM (fun size key => addFramed size key.length) size = some tot ↔
      ((∀ key ∈ keys, key.length < 2 ^ 32) ∧ tot < 2 ^ 64) ∧
        tot = size + (keys.flatMap encodeBytes).length := by
  induction keys generalizing size with
  | nil =>
    simp only [foldlM_nil,Option.pure_def,Option.some.injEq,flatMap_nil,length_nil, Nat.add_zero]
    constructor
    · rintro rfl
      exact ⟨⟨forall_mem_nil _,hs⟩,rfl⟩
    · rintro ⟨_,rfl⟩
      rfl
  | cons key keys ih =>
    simp only [foldlM_cons,Option.bind_eq_bind,Option.bind_eq_some_iff,addFramed_iff,
      forall_mem_cons,flatMap_cons,length_append]
    constructor
    · rintro ⟨next,⟨⟨hk,hn⟩,rfl⟩,hr⟩
      obtain ⟨⟨hke,ht⟩,rfl⟩ := (ih hn).mp hr
      exact ⟨⟨⟨hk,hke⟩,ht⟩,Nat.add_assoc _ _ _⟩
    · rintro ⟨⟨⟨hk,hke⟩,ht⟩,rfl⟩
      have hn : size + (encodeBytes key).length < 2 ^ 64 := by omega
      exact ⟨_,⟨⟨hk,hn⟩,rfl⟩,(ih hn).mpr ⟨⟨hke,ht⟩,(Nat.add_assoc _ _ _).symm⟩⟩

/-- Every length that is written fits its prefix; `encode_length` panics on any other. -/
structure Sized (tx : Transaction) : Prop where
  accessList : tx.accessList.length < 2 ^ 32
  keys : ∀ key ∈ tx.accessList, key.length < 2 ^ 32
  payload : tx.payload.length < 2 ^ 32

lemma toBytes_length (tx : Transaction) :
    tx.toBytes.length = 189 + (encodeLength tx.accessList.length).length +
    (tx.accessList.flatMap encodeBytes).length + (encodeBytes tx.payload).length := by
  have hm : (ascii "ALTX").length = 4 := by decide
  simp only [toBytes,encodeUnsigned,Resources.bytes,length_append,length_singleton,
    u32Bytes_length,u64Bytes_length,hm,tx.sender.2,tx.signature.2]
  omega

lemma encodedLen_iff {tx : Transaction} {n : Nat} : tx.encodedLen = some n ↔
    (tx.Sized ∧ tx.toBytes.length < 2 ^ 64) ∧ n = tx.toBytes.length := by
  constructor
  · intro h
    simp only [encodedLen,Option.bind_eq_bind,Option.bind_eq_some_iff,checkedAdd64_eq_some,prefixLen_iff] at h
    obtain ⟨_,⟨hc,rfl⟩,_,⟨rfl,hst⟩,size,hk,hp⟩ := h
    obtain ⟨⟨ha,_⟩,rfl⟩ := (foldlM_addFramed_iff hst).mp hk
    obtain ⟨⟨hl,ht⟩,rfl⟩ := addFramed_iff.mp hp
    rw [toBytes_length]
    exact ⟨⟨⟨hc,ha,hl⟩,ht⟩,rfl⟩
  · rintro ⟨⟨hs,ht⟩,rfl⟩
    rw [toBytes_length] at ht ⊢
    have hst : 189 + (encodeLength tx.accessList.length).length < 2 ^ 64 := by omega
    simp only [encodedLen,Option.bind_eq_bind,Option.bind_eq_some_iff,checkedAdd64_eq_some,prefixLen_iff]
    refine ⟨_,⟨hs.accessList,rfl⟩,_,⟨rfl,hst⟩,_,
      (foldlM_addFramed_iff hst).mpr ⟨⟨hs.keys,?_⟩,rfl⟩,addFramed_iff.mpr ⟨⟨hs.payload,ht⟩,rfl⟩⟩
    omega

lemma toBytes_length_le {tx : Transaction} {lim : Nat} (h : tx.estimateEncodedLen ≤ lim)
    (hli : lim < 2 ^ 64 - 1) : tx.toBytes.length ≤ lim := by
  unfold estimateEncodedLen at h
  match hl : tx.encodedLen with
  | none =>
    rw [hl,Option.getD_none] at h
    omega
  | some n =>
    rw [hl,Option.getD_some] at h
    exact (encodedLen_iff.mp hl).2 ▸ h

end Transaction
end Astrolune
