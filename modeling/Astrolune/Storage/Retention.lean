import Astrolune.Storage.History

namespace Astrolune.Storage
open Lib Codec List

def minRetainedBlocks : UInt64 := 8
def maxCompactionBytes : Nat := 8 * 1024 * 1024 * 1024

structure RetentionPolicy where
  retainedBlocks : UInt64
  intervalBlocks : UInt64
  maxCompactionBytes : Nat
  deriving DecidableEq

namespace RetentionPolicy

def disabled : RetentionPolicy := ⟨0, 0, 0⟩

def isEnabled (p : RetentionPolicy) : Bool := p.retainedBlocks ≠ 0

def targetFloor (p : RetentionPolicy) (floor head : UInt64) : Option UInt64 :=
  if p.retainedBlocks = 0 ∨ head < floor ∨ head - floor < p.retainedBlocks then none
  else if head - floor - p.retainedBlocks < p.intervalBlocks then none
  else if head - p.retainedBlocks = 0 then none
  else some (head - p.retainedBlocks)

end RetentionPolicy

def numberAt (bytes : Bytes) (start : Nat) : Nat := leNat ((bytes.drop start).take 8)

def hashAt (bytes : Bytes) (start : Nat) (h : start + 32 ≤ bytes.length) : Hash256 :=
  ⟨(bytes.drop start).take 32, by simp; omega⟩

variable {pre after : Bytes} {start : Nat}

lemma take_drop_between {middle : Bytes} {n : Nat}
    (hs : pre.length = start) (hn : middle.length = n) :
    ((pre ++ (middle ++ after)).drop start).take n = middle := by
  rw [drop_left' hs,take_left' hn]

lemma numberAt_between {x : Nat} (hs : pre.length = start)
    (hx : x < 2 ^ 64) : numberAt (pre ++ (leBytes 8 x ++ after)) start = x := by
  rw [numberAt,take_drop_between hs (leBytes_length 8 x),leNat_leBytes_of_lt (by simpa using hx)]

lemma hashAt_between {hash : Hash256} {h}
    (hs : pre.length = start) : hashAt (pre ++ (hash.1 ++ after)) start h = hash :=
  Subtype.ext (take_drop_between hs hash.2)

structure RetentionRecord where
  floor : UInt64
  compactions : UInt64
  block : Hash256
  stateRoot : Hash256
  deriving DecidableEq

def retentionRecordBytes : Nat := 120
def retentionMagic : Bytes := ascii "ASTRET01"
def retentionDomain : Bytes := ascii "astrolune.storage.retention.v1"

namespace RetentionRecord

variable (H : Hasher)

def body (r : RetentionRecord) : Bytes :=
  retentionMagic ++ (u64Bytes r.floor ++ (u64Bytes r.compactions ++ (r.block.1 ++ r.stateRoot.1)))

def toBytes (r : RetentionRecord) : Bytes :=
  r.body ++ (domainHash H retentionDomain r.body).1

def fromBytes (bytes : Bytes) : Except StorageError RetentionRecord :=
  if h : bytes.length = retentionRecordBytes ∧ bytes.take 8 = retentionMagic ∧
      (domainHash H retentionDomain (bytes.take 88)).1 = bytes.drop 88 then
    let record : RetentionRecord :=
      { floor := UInt64.ofNat (numberAt bytes 8)
        compactions := UInt64.ofNat (numberAt bytes 16)
        block := hashAt bytes 24 (by rw [h.1]; decide)
        stateRoot := hashAt bytes 56 (by rw [h.1]; decide) }
    if record.floor = 0 ∨ record.compactions = 0 ∨ record.block = Hash256.zero then .error .corrupt
    else .ok record
  else .error .corrupt

@[simp] lemma length_body (r : RetentionRecord) : r.body.length = 88 := by
  simp only [body,length_append,u64Bytes_length,r.block.2,r.stateRoot.2]
  rfl

@[simp] lemma length_toBytes (r : RetentionRecord) : (r.toBytes H).length = 120 := by
  simp only [toBytes,length_append,length_body,(domainHash H _ _).2]

/-- A record is read back as it was written. One that names nothing is not read at all. -/
lemma fromBytes_toBytes (r : RetentionRecord) : fromBytes H (r.toBytes H) =
      if r.floor = 0 ∨ r.compactions = 0 ∨ r.block = Hash256.zero then .error .corrupt
      else .ok r := by
  have hfr : (r.toBytes H).take 88 = r.body := take_left' r.length_body
  have hb : (r.toBytes H).drop 88 = (domainHash H retentionDomain r.body).1 :=
    drop_left' r.length_body
  have hm : (r.toBytes H).take 8 = retentionMagic := by
    rw [toBytes,body,append_assoc]
    exact take_left' rfl
  have hby : r.toBytes H = retentionMagic ++ (u64Bytes r.floor ++
      (u64Bytes r.compactions ++ (r.block.1 ++ (r.stateRoot.1 ++
        (domainHash H retentionDomain r.body).1)))) := by
    simp only [toBytes,body,append_assoc]
  have hf : numberAt (r.toBytes H) 8 = r.floor.toNat := by
    rw [hby]
    exact numberAt_between rfl r.floor.toNat_lt
  have hc : numberAt (r.toBytes H) 16 = r.compactions.toNat := by
    rw [hby,← append_assoc]
    exact numberAt_between (by simp; rfl) r.compactions.toNat_lt
  have hbl : ∀ h, hashAt (r.toBytes H) 24 h = r.block := by
    rw [hby,← append_assoc,← append_assoc]
    exact fun h => hashAt_between (by simp; rfl)
  have hr : ∀ h, hashAt (r.toBytes H) 56 h = r.stateRoot := by
    rw [hby,← append_assoc,← append_assoc,← append_assoc]
    exact fun h => hashAt_between (by simp [r.block.2]; rfl)
  rw [fromBytes,dif_pos ⟨r.length_toBytes H,hm,by rw [hfr,hb]⟩]
  simp only [hf,hc,hbl,hr,UInt64.ofNat_toNat]

end RetentionRecord
end Astrolune.Storage
