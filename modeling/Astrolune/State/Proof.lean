import Astrolune.Lib.MerklePath
import Astrolune.State.Memory

namespace Astrolune.State
open Lib Codec Decoder Reader List

structure StateProof where
  index : UInt64
  leafCount : UInt64
  siblings : List Hash256
  deriving DecidableEq

structure StateWitness where
  key : StateKey
  value : Bytes
  proof : StateProof
  deriving DecidableEq

structure StateAbsenceProof where
  lower : Option StateWitness
  upper : Option StateWitness
  deriving DecidableEq

inductive StateValueProof where
  | present (witness : StateWitness)
  | absent (proof : StateAbsenceProof)
  deriving DecidableEq

section Verify

variable (H : Hasher)

def maxSiblings : Nat := 20

namespace StateProof

def verify (p : StateProof) (root : Hash256) (key : StateKey) (value : Bytes) : Bool :=
  p.leafCount ≠ 0 && p.leafCount.toNat ≤ maxStateEntries && p.index < p.leafCount &&
    p.siblings.length ≤ maxSiblings && key.length ≤ maxStateKeyBytes &&
    value.length ≤ maxStateValueBytes &&
    -- the hashes up to the root: there are fewer levels than leaves
    (ascend (nodeHash H) p.leafCount.toNat (leafHash H key value) p.index.toNat p.leafCount.toNat
      p.siblings).map (rootHash H p.leafCount.toNat) = some root

end StateProof

def emptyRoot : Hash256 := rootHash H 0 Hash256.zero

namespace StateAbsenceProof

def adjacent (p : StateAbsenceProof) (root : Hash256) : Bool :=
  match p.lower, p.upper with
  | none, none => root = emptyRoot H
  | none, some upper => upper.proof.index = 0
  | some lower, none => lower.proof.index.toNat + 1 = lower.proof.leafCount.toNat
  | some lower, some upper =>
    lower.proof.leafCount = upper.proof.leafCount &&
      lower.proof.index.toNat + 1 = upper.proof.index.toNat

def verify (p : StateAbsenceProof) (root : Hash256) (key : StateKey) : Bool :=
  key.length ≤ maxStateKeyBytes &&
    p.lower.all (fun w => w.key < key && w.proof.verify H root w.key w.value) &&
    p.upper.all (fun w => key < w.key && w.proof.verify H root w.key w.value) &&
    p.adjacent H root

end StateAbsenceProof

def StateValueProof.verify (p : StateValueProof) (root : Hash256) (key : StateKey) :
    Except StateError (Option Bytes) :=
  match p with
  | .present w =>
    if w.key = key ∧ w.proof.verify H root key w.value then .ok (some w.value)
    else .error .corrupt
  | .absent proof => if proof.verify H root key then .ok none else .error .corrupt

end Verify

namespace StateWitness

def validateBounds (keyLen valueLen : Nat) (index leafCount : UInt64) (siblingCount : Nat) :
    Except StateError Unit := do
  ensure .limitExceeded (keyLen ≤ maxStateKeyBytes ∧ valueLen ≤ maxStateValueBytes ∧
    leafCount.toNat ≤ maxStateEntries ∧ siblingCount ≤ maxSiblings)
  ensure .corrupt (leafCount ≠ 0 ∧ index < leafCount)

def validate (w : StateWitness) : Except StateError Unit :=
  validateBounds w.key.length w.value.length w.proof.index w.proof.leafCount
    w.proof.siblings.length

def bytes (w : StateWitness) : Bytes :=
  blob w.key ++ (blob w.value ++ (u64Bytes w.proof.index ++ (u64Bytes w.proof.leafCount ++
    ([UInt8.ofNat w.proof.siblings.length] ++ w.proof.siblings.flatMap Subtype.val))))

def optionBytes : Option StateWitness → Bytes
  | none => [0]
  | some w => [1] ++ w.bytes

def readPresent : Reader StateError StateWitness := do
  let key ← readBytes maxStateKeyBytes
  let value ← readBytes maxStateValueBytes
  let index ← failingAs .corrupt readU64
  let leafCount ← failingAs .corrupt readU64
  let count ← failingAs .corrupt readU8
  give (validateBounds key.length value.length index leafCount count.toNat)
  let siblings ← failingAs .corrupt (many (readFixed 32) count.toNat)
  return { key, value, proof := { index, leafCount, siblings } }

def read : Reader StateError (Option StateWitness) := do
  let flag ← failingAs .corrupt readU8
  if flag = 0 then return none
  else if flag = 1 then return some (← readPresent)
  else give (.error .corrupt)

end StateWitness

namespace StateAbsenceProof

def absenceMagic : Bytes := ascii "ASTABSEN"

def maxAbsenceProofBytes : Nat :=
  12 + 2 * (33 + maxStateKeyBytes + maxStateValueBytes + 32 * maxSiblings)

def toBytes (p : StateAbsenceProof) : Except StateError Bytes := do
  p.lower.forM StateWitness.validate
  p.upper.forM StateWitness.validate
  return absenceMagic ++ (u16Bytes 1 ++
    (StateWitness.optionBytes p.lower ++ StateWitness.optionBytes p.upper))

def read : Reader StateError StateAbsenceProof := do
  let magic ← failingAs .corrupt (readExact 8)
  check .corrupt (magic = absenceMagic)
  let version ← failingAs .corrupt readU16
  check .corrupt (version = 1)
  let lower ← StateWitness.read
  let upper ← StateWitness.read
  return { lower, upper }

def fromBytes (bytes : Bytes) : Except StateError StateAbsenceProof := do
  ensure .limitExceeded (bytes.length ≤ maxAbsenceProofBytes)
  let (p, rest) ← read.run bytes
  ensure .corrupt (rest = [])
  return p

end StateAbsenceProof

namespace StateValueProof

def framed : StateValueProof → StateAbsenceProof
  | present w => { lower := some w, upper := none }
  | absent proof => proof

def tag : StateValueProof → UInt8
  | present _ => 1
  | absent _ => 0

/-- The bounds of `to_bytes` itself, all of which fail with one error. -/
def checkWitness (w : StateWitness) : Except StateError Unit :=
  ensure .limitExceeded (w.key.length ≤ maxStateKeyBytes ∧ w.value.length ≤ maxStateValueBytes ∧
    w.proof.siblings.length ≤ maxSiblings ∧ w.proof.leafCount ≠ 0 ∧
    w.proof.leafCount.toNat ≤ maxStateEntries ∧ w.proof.index < w.proof.leafCount)

def toBytes (p : StateValueProof) : Except StateError Bytes := do
  p.framed.lower.forM checkWitness
  p.framed.upper.forM checkWitness
  let bytes ← p.framed.toBytes
  return p.tag :: bytes

def maxBytes : Nat := 1 + StateAbsenceProof.maxAbsenceProofBytes

def unframe (tag : UInt8) (proof : StateAbsenceProof) : Except StateError StateValueProof :=
  if tag = 0 then .ok (absent proof)
  else
    match tag, proof.lower, proof.upper with
    | 1, some w, none => .ok (present w)
    | _, _, _ => .error .corrupt

def fromBytes (bytes : Bytes) : Except StateError StateValueProof :=
  match bytes with
  | [] => .error .limitExceeded
  | tag :: rest => do
    ensure .limitExceeded ((tag :: rest).length ≤ maxBytes)
    unframe tag (← StateAbsenceProof.fromBytes rest)

end StateValueProof

structure StateWitness.Encodable (w : StateWitness) : Prop where
  key : w.key.length ≤ maxStateKeyBytes
  value : w.value.length ≤ maxStateValueBytes
  siblings : w.proof.siblings.length ≤ maxSiblings
  nonempty : w.proof.leafCount ≠ 0
  leafCount : w.proof.leafCount.toNat ≤ maxStateEntries
  index : w.proof.index < w.proof.leafCount

lemma StateValueProof.encodable_of_check {w : StateWitness} {u : Unit}
    (h : checkWitness w = .ok u) : w.Encodable := by
  obtain ⟨h1,h2,h3,h4,h5,h6⟩ := ensure_eq_ok.mp h
  exact ⟨h1,h2,h3,h4,h5,h6⟩

namespace StateWitness

lemma reads_present {w : StateWitness} (h : w.Encodable) : Reads readPresent w.bytes w := by
  have hc : (UInt8.ofNat w.proof.siblings.length).toNat = w.proof.siblings.length := by
    have := h.siblings
    simp only [maxSiblings] at this
    simp only [UInt8.toNat_ofNat']
    omega
  have hk := InMemoryState.reads_stateBytes h.key (by decide)
  have hv := InMemoryState.reads_stateBytes h.value (by decide)
  have hb : validateBounds w.key.length w.value.length w.proof.index w.proof.leafCount
      (UInt8.ofNat w.proof.siblings.length).toNat = .ok () := by
    rw [validateBounds,hc,ensure_of ⟨h.key,h.value,h.leafCount,h.siblings⟩,
      ensure_of ⟨h.nonempty,h.index⟩]
    rfl
  have hs : Reads (many (readFixed 32)
      (UInt8.ofNat w.proof.siblings.length).toNat) (w.proof.siblings.flatMap Subtype.val)
      w.proof.siblings := by
    rw [hc]
    exact Reads.many fun sibling _ => Reads.readFixed sibling
  exact hk.bind (hv.bind ((Reads.failingAs _ (Reads.readU64 _)).bind
    ((Reads.failingAs _ (Reads.readU64 _)).bind ((Reads.failingAs _ (Reads.readU8 _)).bind
      ((Reads.give hb).bind_nil (Reads.failingAs _ hs).bind_pure)))))

lemma reads_option {o : Option StateWitness} (h : ∀ w ∈ o, w.Encodable) :
    Reads read (optionBytes o) o := by
  cases o with
  | none => exact (Reads.failingAs StateError.corrupt (Reads.readU8 0)).bind (y := []) Reads.pure
  | some w =>
    exact (Reads.failingAs StateError.corrupt (Reads.readU8 1)).bind (reads_present (h w rfl)).bind_pure

lemma length_optionBytes {o : Option StateWitness} (h : ∀ w ∈ o, w.Encodable) :
    (optionBytes o).length ≤ 34 + maxStateKeyBytes + maxStateValueBytes + 32 * maxSiblings := by
  cases o with
  | none =>
    simp only [optionBytes,length_singleton]
    omega
  | some w =>
    obtain ⟨hk,hv,hs,-,-,-⟩ := h w rfl
    have hf : (w.proof.siblings.flatMap Subtype.val).length = 32 * w.proof.siblings.length := by
      induction w.proof.siblings with
      | nil => rfl
      | cons sibling rest ih =>
        rw [flatMap_cons,length_append,ih,sibling.2,length_cons]
        omega
    simp only [optionBytes,bytes,length_append,length_singleton,blob_length, u64Bytes_length,hf]
    omega

end StateWitness

lemma StateAbsenceProof.fromBytes_toBytes {p : StateAbsenceProof} {bs : Bytes}
    (hlo : ∀ w ∈ p.lower, w.Encodable) (hup : ∀ w ∈ p.upper, w.Encodable)
    (h : p.toBytes = .ok bs) :
    bs.length ≤ maxAbsenceProofBytes ∧ fromBytes bs = .ok p := by
  simp only [toBytes,bind_eq_ok,pure_ok_iff] at h
  obtain ⟨_,_,_,_,rfl⟩ := h
  have hm : absenceMagic.length = 8 := by decide
  have hl := StateWitness.length_optionBytes hlo
  have hu := StateWitness.length_optionBytes hup
  have hle : (absenceMagic ++ (u16Bytes 1 ++ (StateWitness.optionBytes p.lower ++
      StateWitness.optionBytes p.upper))).length ≤ maxAbsenceProofBytes := by
    simp only [length_append,hm,u16Bytes_length,maxAbsenceProofBytes]
    omega
  have hr : Reads read _ p :=
    (Reads.failingAs StateError.corrupt (Reads.readExact hm)).bind (Reads.after rfl
      ((Reads.failingAs _ (Reads.readU16 1)).bind (Reads.after rfl
        ((StateWitness.reads_option hlo).bind (StateWitness.reads_option hup).bind_pure))))
  have hru := hr []
  rw [append_nil] at hru
  refine ⟨hle,?_⟩
  simp only [fromBytes,ensure_of hle,ok_bind,hru,ensure_of,pure_eq_ok]

lemma forM_option_ok {f : StateWitness → Except StateError Unit} {o : Option StateWitness}
    {u : Unit} (h : o.forM f = .ok u) : ∀ w ∈ o, f w = .ok () := by
  intro w hw
  cases hw
  exact h

lemma StateValueProof.fromBytes_toBytes {p : StateValueProof} {bs : Bytes}
    (h : p.toBytes = .ok bs) : fromBytes bs = .ok p := by
  simp only [toBytes,bind_eq_ok,pure_ok_iff] at h
  obtain ⟨_,hlo,_,hu,framed,hf,rfl⟩ := h
  obtain ⟨hl,hr⟩ := StateAbsenceProof.fromBytes_toBytes
    (fun w hw => encodable_of_check (forM_option_ok hlo w hw))
    (fun w hw => encodable_of_check (forM_option_ok hu w hw)) hf
  have hm : (p.tag :: framed).length ≤ maxBytes := by
    rw [length_cons,maxBytes]
    omega
  simp only [fromBytes,ensure_of hm,ok_bind,hr]
  cases p <;> rfl

end Astrolune.State
