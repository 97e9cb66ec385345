import Astrolune.Consensus.Governance
import Astrolune.Consensus.Wire
import Astrolune.Types.Formats

namespace Astrolune.Crypto
open Lib Codec Decoder Reader List

namespace VrfOutput

variable {c : Suite} {o : VrfOutput} {bytes : Bytes}

def raw (o : VrfOutput) : Bytes := ascii "ALVR" ++ (u32Bytes 1 ++ (o.randomness.1 ++ o.proof))

def decode (c : Suite) (bytes : Bytes) : Option VrfOutput :=
  if h : bytes.length = 120 ∧ bytes.take 4 = ascii "ALVR" ∧ (bytes.drop 4).take 4 = u32Bytes 1 ∧
      decodeProof c (bytes.drop 40) = true then
    some { randomness := ⟨(bytes.drop 8).take 32, by simp [h.1]⟩, proof := bytes.drop 40 }
  else none

lemma encode_eq_some : o.encode c = some bytes ↔ decodeProof c o.proof = true ∧ bytes = o.raw := by
  unfold encode
  split_ifs with h
  · simp [h,raw,eq_comm]
  · simp [h]

lemma proof_length (h : decodeProof c o.proof = true) : o.proof.length = 80 := by
  simp only [decodeProof,Bool.and_eq_true,decide_eq_true_eq] at h
  exact h.1

lemma raw_length (h : decodeProof c o.proof = true) : o.raw.length = 120 := by
  have hm : (ascii "ALVR").length = 4 := by decide
  simp only [raw,length_append,hm,u32Bytes_length,o.randomness.2,proof_length h]

lemma decode_eq_some : decode c bytes = some o ↔ decodeProof c o.proof = true ∧ bytes = o.raw := by
  constructor
  · intro h
    unfold decode at h
    split_ifs at h with hsh
    cases h
    obtain ⟨-,hm,hv,hp⟩ := hsh
    refine ⟨hp,?_⟩
    have hl : (bytes.drop 8).drop 32 = bytes.drop 40 := by rw [drop_drop]
    have hmi : (bytes.drop 4).drop 4 = bytes.drop 8 := by rw [drop_drop]
    calc bytes = bytes.take 4 ++ ((bytes.drop 4).take 4 ++ ((bytes.drop 8).take 32 ++ bytes.drop 40)) := by
            rw [← hl,take_append_drop,← hmi,take_append_drop,take_append_drop]
      _ = ascii "ALVR" ++ (u32Bytes 1 ++ ((bytes.drop 8).take 32 ++ bytes.drop 40)) := by
            rw [hm,hv]
  · rintro ⟨hp,rfl⟩
    have hm : (ascii "ALVR").length = 4 := by decide
    have hf : (ascii "ALVR" ++ u32Bytes 1).length = 8 := by simp [hm]
    have hlo : (ascii "ALVR" ++ (u32Bytes 1 ++ o.randomness.1)).length = 40 := by
      simp [hm,o.randomness.2]
    have ht : o.raw.take 4 = ascii "ALVR" := take_left' hm
    have hv : (o.raw.drop 4).take 4 = u32Bytes 1 := by
      rw [raw,drop_left' hm,take_left' (u32Bytes_length 1)]
    have hs : (o.raw.drop 8).take 32 = o.randomness.1 := by
      rw [raw,← append_assoc,drop_left' hf,take_left' o.randomness.2]
    have hl : o.raw.drop 40 = o.proof := by
      have : o.raw = (ascii "ALVR" ++ (u32Bytes 1 ++ o.randomness.1)) ++ o.proof := by
        simp only [raw,append_assoc]
      rw [this,drop_left' hlo]
    unfold decode
    rw [dif_pos ⟨raw_length hp,ht,hv,hl.symm ▸ hp⟩]
    congr 1
    rcases o with ⟨randomness,pf⟩
    congr 1
    exact Subtype.ext hs

end VrfOutput

end Astrolune.Crypto

namespace Astrolune.Consensus
open Lib Codec Crypto Decoder Reader List

variable {c : Suite} {bytes : Bytes}

def readValidator : Decoder VrfValidator := do
  let publicKey ← readFixed 32
  let weight ← readU128
  return { publicKey, weight }

lemma exact_readValidator :
    Exact readValidator CommitteeState.validatorBytes fun v => v.weight < 2 ^ 128 := by
  intro bytes v rest
  simp only [readValidator,bind_run_ok,pure_run_ok,readFixed_run_ok,
    readU128_run_ok,CommitteeState.validatorBytes,append_assoc]
  constructor
  · rintro ⟨pk,_,rfl,wt,_,⟨hw,rfl⟩,rfl,rfl⟩
    exact ⟨hw,rfl⟩
  · rintro ⟨hw,rfl⟩
    exact ⟨v.publicKey,_,rfl,v.weight,_,⟨hw,rfl⟩,rfl,rfl⟩

lemma exact_hashes (n : Nat) :
    Exact (many (readFixed 32) n) (·.flatMap Subtype.val) (·.length = n) := by
  intro bytes l rest
  rw [(Exact.readFixed 32).many n bytes l rest]
  simp

lemma length_hashes (l : List Hash256) : (l.flatMap Subtype.val).length = l.length * 32 :=
  length_flatMap_of fun hash _ => hash.2

lemma ofNat_of_length {α : Type} {l : List α} {count : UInt8} (h : l.length = count.toNat) :
    UInt8.ofNat l.length = count := by
  rw [h,UInt8.ofNat_toNat]

lemma toNat_ofNat_length {n : Nat} (h : n ≤ maxRotationValidators) : (UInt8.ofNat n).toNat = n :=
  UInt8.toNat_ofNat_of_lt' (Nat.lt_of_le_of_lt h (by decide))

lemma count_ne_zero {α : Type} {l : List α} (hn : l ≠ []) (h : l.length ≤ maxRotationValidators) :
    UInt8.ofNat l.length ≠ 0 := by
  intro hz
  have hc := toNat_ofNat_length h
  rw [hz] at hc
  exact hn (length_eq_zero_iff.mp hc.symm)

namespace VrfContribution

def encodedLen : Nat := 280

def Canonical (c : Suite) (e : VrfContribution) : Prop :=
  decodeProof c e.committee.proof = true ∧ decodeProof c e.producer.proof = true

def raw (e : VrfContribution) : Bytes :=
  ascii "ALVRFC01" ++ (e.validator.1 ++ (e.committee.raw ++ e.producer.raw))

def readOutput (c : Suite) : Decoder VrfOutput := do
  let bytes ← readExact 120
  give (okOr .nonCanonical (VrfOutput.decode c bytes))

def read (c : Suite) : Decoder VrfContribution := do
  expect .unsupported (ascii "ALVRFC01")
  let validator ← readFixed 32
  let committee ← readOutput c
  let producer ← readOutput c
  return { validator, committee, producer }

def fromBytes (c : Suite) (bytes : Bytes) : Except DecodeError VrfContribution := do
  ensure .nonCanonical (bytes.length = encodedLen)
  whole (read c) bytes

variable {e : VrfContribution}

lemma writes : Writes (VrfBatch.contributionBytes c) raw (Canonical c) := by
  intro e bytes
  simp only [VrfBatch.contributionBytes,bind_eq_ok,okOr_eq_ok,VrfOutput.encode_eq_some,
    pure_ok_iff,Canonical]
  constructor
  · rintro ⟨_,⟨hc,rfl⟩,_,⟨hp,rfl⟩,rfl⟩
    exact ⟨⟨hc,hp⟩,rfl⟩
  · rintro ⟨⟨hc,hp⟩,rfl⟩
    exact ⟨_,⟨hc,rfl⟩,_,⟨hp,rfl⟩,rfl⟩

lemma raw_length (h : e.Canonical c) : e.raw.length = encodedLen := by
  have hm : (ascii "ALVRFC01").length = 8 := by decide
  simp only [raw,length_append,hm,e.validator.2,VrfOutput.raw_length h.1,
    VrfOutput.raw_length h.2,encodedLen]

lemma exact_readOutput : Exact (readOutput c) VrfOutput.raw fun o => decodeProof c o.proof = true :=
  Exact.sliced (fun _ _ => okOr_eq_ok.trans VrfOutput.decode_eq_some) fun _ => VrfOutput.raw_length

lemma fromBytes_eq_ok : fromBytes c bytes = .ok e ↔ e.Canonical c ∧ bytes = e.raw := by
  simp only [fromBytes,bind_eq_ok,ensure_eq_ok,whole_eq_ok,read,bind_run_ok,
    pure_run_ok,expect_run_ok,readFixed_run_ok,exact_readOutput _ _ _]
  constructor
  · rintro ⟨_,_,_,_,rfl,validator,_,rfl,com,_,⟨hc,rfl⟩,producer,_, ⟨hp,rfl⟩,rfl,rfl⟩
    refine ⟨⟨hc,hp⟩,?_⟩
    rw [append_nil,raw]
  · rintro ⟨h,rfl⟩
    refine ⟨(),raw_length h,(),_,rfl,e.validator,_,rfl,e.committee,_,⟨h.1,rfl⟩,e.producer,
      [],⟨h.2,?_⟩,rfl,rfl⟩
    rw [append_nil]

end VrfContribution

namespace VrfBatch

def maxBytes : Nat := 9 + VrfContribution.encodedLen * maxRotationValidators

def readEntries : Decoder (Nat × Bytes) := do
  expect .unsupported (ascii "ALVRFB01")
  let count ← readU8
  check .limitExceeded (count ≠ 0 ∧ count.toNat ≤ maxRotationValidators)
  let entries ← readExact (count.toNat * VrfContribution.encodedLen)
  return (count.toNat, entries)

def readContribution (c : Suite) : Decoder VrfContribution := do
  let chunk ← readExact VrfContribution.encodedLen
  give (VrfContribution.fromBytes c chunk)

def fromBytes (c : Suite) (bytes : Bytes) : Except DecodeError VrfBatch := do
  ensure .limitExceeded (bytes.length ≤ maxBytes)
  let (count, chunks) ← whole readEntries bytes
  let entries ← whole (many (readContribution c) count) chunks
  VrfBatch.validateShape { entries }
  return { entries }

def raw (b : VrfBatch) : Bytes :=
  ascii "ALVRFB01" ++ ([UInt8.ofNat b.entries.length] ++ b.entries.flatMap VrfContribution.raw)

def Canonical (c : Suite) (b : VrfBatch) : Prop :=
  b.validateShape = .ok () ∧ ∀ e ∈ b.entries, e.Canonical c

lemma writes : Writes (toBytes c) raw (Canonical c) := by
  intro b bytes
  simp only [toBytes,bind_eq_ok,VrfContribution.writes.mapM,pure_ok_iff,Canonical]
  constructor
  · rintro ⟨_,hs,_,⟨he,rfl⟩,rfl⟩
    exact ⟨⟨hs,he⟩,rfl⟩
  · rintro ⟨⟨hs,he⟩,rfl⟩
    exact ⟨(),hs,_,⟨he,rfl⟩,rfl⟩

variable {b : VrfBatch}

lemma exact_readContribution :
    Exact (readContribution c) VrfContribution.raw (VrfContribution.Canonical c) :=
  Exact.sliced (fun _ _ => VrfContribution.fromBytes_eq_ok) fun _ => VrfContribution.raw_length

lemma length_of_shape (h : b.validateShape = .ok ()) :
    b.entries ≠ [] ∧ b.entries.length ≤ maxRotationValidators := by
  obtain ⟨_,hs,-⟩ := bind_eq_ok.mp h
  exact ensure_eq_ok.mp hs

lemma entries_length (h : ∀ e ∈ b.entries, e.Canonical c) :
    (b.entries.flatMap VrfContribution.raw).length = b.entries.length * VrfContribution.encodedLen :=
  length_flatMap_of fun e he => VrfContribution.raw_length (h e he)

lemma raw_length (h : b.Canonical c) : b.raw.length ≤ maxBytes := by
  have hm : (ascii "ALVRFB01").length = 8 := by decide
  have hma := (length_of_shape h.1).2
  have hc : b.entries.length * 280 ≤ maxRotationValidators * 280 := Nat.mul_le_mul_right 280 hma
  simp only [raw,length_append,hm,length_singleton,entries_length h.2,maxBytes,
    VrfContribution.encodedLen]
  omega

lemma fromBytes_eq_ok : fromBytes c bytes = .ok b ↔ b.Canonical c ∧ bytes = b.raw := by
  simp only [fromBytes,bind_eq_ok,ensure_eq_ok,pure_ok_iff,whole_eq_ok,
    readEntries,bind_run_ok,pure_run_ok,expect_run_ok,
    readU8_run_ok,check_run_ok,readExact_run_ok,Prod.exists,Prod.mk.injEq,
    exact_readContribution.many _ _ _ _]
  constructor
  · rintro ⟨_,_,count,_,⟨_,_,rfl,size,_,rfl,_,_,⟨_,rfl⟩,_,_,⟨_,rfl⟩,⟨rfl,rfl⟩,rfl⟩,
      entries,⟨⟨hc,he⟩,rfl⟩,_,hs,rfl⟩
    refine ⟨⟨hs,he⟩,?_⟩
    simp only [raw,ofNat_of_length hc,append_nil]
  · rintro ⟨h,rfl⟩
    obtain ⟨hn,hm⟩ := length_of_shape h.1
    have hc := toNat_ofNat_length hm
    refine ⟨(),raw_length h,b.entries.length,b.entries.flatMap VrfContribution.raw,
      ⟨(),_,rfl,UInt8.ofNat b.entries.length,_,rfl,(),_,
        ⟨⟨count_ne_zero hn hm,hc.symm ▸ hm⟩,rfl⟩,b.entries.flatMap VrfContribution.raw,[],⟨?_,?_⟩,
        ⟨hc,rfl⟩,rfl⟩,b.entries,⟨⟨rfl,h.2⟩,?_⟩,(),h.1,rfl⟩
    · rw [hc,entries_length h.2]
    · rw [append_nil]
    · rw [append_nil]

end VrfBatch

namespace CommitteeState

def maxBytes : Nat := 152 + 80 * maxRotationValidators

def read : Decoder CommitteeState := do
  expect .unsupported (ascii "ALCMST01")
  let chainId ← readU32
  let genesis ← readFixed 32
  let height ← readU64
  let randomness ← readFixed 32
  let capacity ← readResources
  let targetSize ← readU8
  let rotationCount ← readU8
  let rosterCount ← readU8
  let memberCount ← readU8
  check .limitExceeded
    (rosterCount.toNat ≤ maxRotationValidators ∧ memberCount.toNat ≤ maxRotationValidators)
  let producer ← readFixed 32
  let roster ← many readValidator rosterCount.toNat
  let members ← many (readFixed 32) memberCount.toNat
  return { chainId, genesis, height, randomness, capacity, targetSize := targetSize.toNat,
           rotationCount := rotationCount.toNat, roster, members, producer }

def fromBytes (c : Suite) (bytes : Bytes) : Except DecodeError CommitteeState := do
  ensure .limitExceeded (bytes.length ≤ maxBytes)
  let s ← whole read bytes
  failAs .nonCanonical (s.validate c)
  return s

def raw (s : CommitteeState) : Bytes :=
  ascii "ALCMST01" ++ (u32Bytes s.chainId ++ (s.genesis.1 ++ (u64Bytes s.height ++
    (s.randomness.1 ++ (s.capacity.bytes ++ ([UInt8.ofNat s.targetSize] ++
      ([UInt8.ofNat s.rotationCount] ++ ([UInt8.ofNat s.roster.length] ++
        ([UInt8.ofNat s.members.length] ++ (s.producer.1 ++ (s.roster.flatMap validatorBytes ++
          s.members.flatMap Subtype.val)))))))))))

lemma writes : Writes (toBytes c) raw fun s => s.validate c = .ok () := by
  intro s bytes
  simp only [toBytes,bind_eq_ok,failAs_eq_ok,pure_ok_iff]
  constructor
  · rintro ⟨_,hv,rfl⟩
    exact ⟨hv,rfl⟩
  · rintro ⟨hv,rfl⟩
    exact ⟨(),hv,rfl⟩

structure Bounded (s : CommitteeState) : Prop where
  roster : s.roster.length ≤ maxRotationValidators
  target : s.targetSize ≤ maxRotationValidators
  rotation : s.rotationCount ≤ maxRotationValidators
  members : s.members.length ≤ maxRotationValidators
  weights : ∀ v ∈ s.roster, v.weight < 2 ^ 128

lemma weights_of_check {roster : List VrfValidator} {acc out : Option ValidatorId × Nat}
    (h : roster.foldlM (checkValidator c) acc = .ok out) : ∀ v ∈ roster, v.weight < 2 ^ 128 := by
  induction roster generalizing acc with
  | nil => simp
  | cons v roster ih =>
    rw [foldlM_cons,bind_eq_ok] at h
    obtain ⟨next,hn,h⟩ := h
    simp only [checkValidator,bind_eq_ok,okOr_eq_ok,checkedAdd128_eq_some] at hn
    obtain ⟨_,_,_,_,tot,⟨ht,hb⟩,_⟩ := hn
    exact forall_mem_cons.mpr ⟨by omega,ih h⟩

variable {s : CommitteeState}

lemma bounded_of_validate (h : s.validate c = .ok ()) : s.Bounded := by
  simp only [validate,bind_eq_ok,ensure_eq_ok] at h
  obtain ⟨_,⟨_,_,_,_,hr,_,ht,hro,_,hm,_⟩,_,hw,_⟩ := h
  exact ⟨hr,ht.trans hr,hro.trans (ht.trans hr),hm.trans hr,weights_of_check hw⟩

lemma validatorBytes_length (v : VrfValidator) : (validatorBytes v).length = 48 := by
  rw [validatorBytes,length_append,v.publicKey.2,leBytes_length]

lemma roster_length (roster : List VrfValidator) :
    (roster.flatMap validatorBytes).length = roster.length * 48 :=
  length_flatMap_of fun v _ => validatorBytes_length v

lemma raw_length (h : s.Bounded) : s.raw.length ≤ maxBytes := by
  have hm : (ascii "ALCMST01").length = 8 := by decide
  have hr := h.roster
  have hme := h.members
  simp only [raw,length_append,hm,u32Bytes_length,u64Bytes_length,s.genesis.2,
    s.randomness.2,s.producer.2,Resources.bytes_length,length_singleton,roster_length,
    length_hashes,maxBytes]
  omega

lemma fromBytes_eq_ok : fromBytes c bytes = .ok s ↔ s.validate c = .ok () ∧ bytes = s.raw := by
  simp only [fromBytes,bind_eq_ok,ensure_eq_ok,failAs_eq_ok,pure_ok_iff,whole_eq_ok]
  constructor
  · rintro ⟨_,_,s,h,_,hv,rfl⟩
    refine ⟨hv,?_⟩
    simp only [read,bind_run_ok,pure_run_ok,expect_run_ok,
      readU32_run_ok,readU64_run_ok,readFixed_run_ok,
      readResources_run_ok,readU8_run_ok,check_run_ok,
      exact_readValidator.many _ _ _ _,exact_hashes _ _ _ _] at h
    obtain ⟨_,_,rfl,chainId,_,rfl,gen,_,rfl,height,_,rfl,randomness,_,rfl,cap,_,
      rfl,target,_,rfl,rotation,_,rfl,rosterCount,_,rfl,memberCount,_,rfl,_,_,⟨_,rfl⟩,
      producer,_,rfl,roster,_,⟨⟨hr,-⟩,rfl⟩,members,_,⟨hm,rfl⟩,rfl,rfl⟩ := h
    simp only [raw,ofNat_of_length hr,ofNat_of_length hm,UInt8.ofNat_toNat,append_nil]
  · rintro ⟨hv,rfl⟩
    have hb := bounded_of_validate hv
    refine ⟨(),raw_length hb,s,?_,(),hv,rfl⟩
    have hr := toNat_ofNat_length hb.roster
    have hm := toNat_ofNat_length hb.members
    simp only [read,bind_run_ok,pure_run_ok,expect_run_ok,
      readU32_run_ok,readU64_run_ok,readFixed_run_ok,
      readResources_run_ok,readU8_run_ok,check_run_ok,
      exact_readValidator.many _ _ _ _,exact_hashes _ _ _ _]
    refine ⟨(),_,rfl,s.chainId,_,rfl,s.genesis,_,rfl,s.height,_,rfl,s.randomness,_,rfl,
      s.capacity,_,rfl,UInt8.ofNat s.targetSize,_,rfl,UInt8.ofNat s.rotationCount,_,rfl,
      UInt8.ofNat s.roster.length,_,rfl,UInt8.ofNat s.members.length,_,rfl,(),_,⟨?_,rfl⟩,
      s.producer,_,rfl,s.roster,_,⟨⟨hr.symm,hb.weights⟩,rfl⟩,s.members,[],
      ⟨hm.symm,(append_nil _).symm⟩,?_,rfl⟩
    · rw [hr,hm]
      exact ⟨hb.roster,hb.members⟩
    · rw [toNat_ofNat_length hb.target,toNat_ofNat_length hb.rotation]

end CommitteeState

def countOnes (n : Nat) : Nat := (range 64).countP n.testBit

namespace CommitteeHistory

def maxBytes : Nat := 52 + 64 * 32

def readPeak : Bool → Decoder (Option Hash256)
  | false => return none
  | true => do return some (← readFixed 32)

/-- The peaks from `level` on: one for every digit of the count that is set. -/
def readPeaks (entries : Nat) : Nat → Nat → Decoder (List (Option Hash256))
  | _, 0 => pure []
  | level, left+1 => do
    let peak ← readPeak (entries.testBit level)
    let rest ← readPeaks entries (level + 1) left
    return peak :: rest

def read : Decoder CommitteeHistory := do
  expect .unsupported (ascii "ALCHST01")
  let chainId ← readU32
  let genesis ← readFixed 32
  let result ← give (failAs .nonCanonical (new chainId genesis))
  let entries ← readU64
  let remaining ← Decoder.remaining
  check .nonCanonical (remaining = countOnes entries.toNat * 32)
  let frontier ← readPeaks entries.toNat 0 64
  return { result with entries := entries.toNat, frontier }

def fromBytes (bytes : Bytes) : Except DecodeError CommitteeHistory := do
  ensure .limitExceeded (bytes.length ≤ maxBytes)
  whole read bytes

def Occupied (entries level : Nat) (frontier : List (Option Hash256)) : Prop :=
  frontier.map Option.isSome = (range' level frontier.length).map entries.testBit

/-- The private invariant of a history: its namespace, and a slot for every digit. -/
structure Canonical (h : CommitteeHistory) : Prop where
  chainId : h.chainId ≠ 0
  genesis : h.genesis ≠ Hash256.zero
  bounded : h.entries < 2 ^ 64
  slots : h.frontier.length = 64
  occupied : Occupied h.entries 0 h.frontier

def peakBytes (frontier : List (Option Hash256)) : Bytes := (frontier.filterMap id).flatMap Subtype.val

lemma readPeak_run_ok {occupied : Bool} {peak : Option Hash256} {rest : Bytes} :
    (readPeak occupied).run bytes = .ok (peak,rest) ↔
      peak.isSome = occupied ∧ bytes = peakBytes [peak] ++ rest := by
  cases occupied with
  | false =>
    simp only [readPeak,pure_run_ok,Option.isSome_eq_false_iff,Option.isNone_iff_eq_none]
    constructor
    · rintro ⟨rfl,rfl⟩
      exact ⟨rfl,rfl⟩
    · rintro ⟨rfl,rfl⟩
      exact ⟨rfl,rfl⟩
  | true =>
    simp only [readPeak,bind_run_ok,pure_run_ok,readFixed_run_ok]
    constructor
    · rintro ⟨hash,_,rfl,rfl,rfl⟩
      exact ⟨rfl,by simp [peakBytes]⟩
    · rintro ⟨hp,rfl⟩
      obtain ⟨hash,rfl⟩ := Option.isSome_iff_exists.mp hp
      exact ⟨hash,rest,by simp [peakBytes],rfl,rfl⟩

lemma peakBytes_cons (peak : Option Hash256) (frontier : List (Option Hash256)) :
    peakBytes (peak :: frontier) = peakBytes [peak] ++ peakBytes frontier := by
  cases peak <;> simp [peakBytes]

lemma occupied_cons {es lv : Nat} {peak : Option Hash256}
    {frontier : List (Option Hash256)} : Occupied es lv (peak :: frontier) ↔
      peak.isSome = es.testBit lv ∧ Occupied es (lv + 1) frontier := by
  rw [Occupied,map_cons,length_cons,range'_succ,map_cons,cons.injEq]
  rfl

lemma exact_readPeaks (es lv left : Nat) : Exact (readPeaks es lv left) peakBytes
    fun frontier => frontier.length = left ∧ Occupied es lv frontier := by
  induction left generalizing lv with
  | zero =>
    intro bytes frontier rest
    simp only [readPeaks,pure_run_ok,length_eq_zero_iff]
    constructor
    · rintro ⟨rfl,rfl⟩
      exact ⟨⟨rfl,rfl⟩,rfl⟩
    · rintro ⟨⟨rfl,-⟩,rfl⟩
      exact ⟨rfl,rfl⟩
  | succ left ih =>
    intro bytes frontier rest
    simp only [readPeaks,bind_run_ok,pure_run_ok,readPeak_run_ok,ih _ _ _ _]
    constructor
    · rintro ⟨peak,_,⟨hp,rfl⟩,frontier,_,⟨⟨hl,ho⟩,rfl⟩,rfl,rfl⟩
      refine ⟨⟨by rw [length_cons,hl],occupied_cons.mpr ⟨hp,ho⟩⟩,?_⟩
      rw [peakBytes_cons peak frontier,append_assoc]
    · rintro ⟨⟨hl,ho⟩,rfl⟩
      cases frontier with
      | nil => cases hl
      | cons peak frontier =>
        obtain ⟨hp,ho⟩ := occupied_cons.mp ho
        refine ⟨peak,peakBytes frontier ++ rest,⟨hp,?_⟩,frontier,rest,
          ⟨⟨Nat.succ.inj hl,ho⟩,rfl⟩,rfl,rfl⟩
        rw [peakBytes_cons,append_assoc]

lemma peaks_length {es : Nat} {frontier : List (Option Hash256)}
    (hs : frontier.length = 64) (h : Occupied es 0 frontier) :
    (frontier.filterMap id).length = countOnes es := by
  have hc : ∀ l : List (Option Hash256), (l.filterMap id).length = (l.map Option.isSome).countP id := by
    intro l
    induction l with
    | nil => rfl
    | cons slot l ih =>
      rw [map_cons,countP_cons,← ih]
      cases slot <;> rfl
  rw [hc,h,hs,countOnes,countP_map,range_eq_range']
  rfl

variable {h : CommitteeHistory}

lemma new_eq_ok {chainId : UInt32} {genesis : Hash256} :
    new chainId genesis = .ok h ↔ (chainId ≠ 0 ∧ genesis ≠ Hash256.zero) ∧
      h = { chainId, genesis, entries := 0, frontier := replicate 64 none } := by
  simp only [new,bind_eq_ok,ensure_eq_ok,pure_ok_iff,exists_and_left,exists_const]
  exact and_congr_right fun _ => eq_comm

lemma toBytes_length (h : CommitteeHistory) :
    h.toBytes.length = 52 + (h.frontier.filterMap id).length * 32 := by
  have hm : (ascii "ALCHST01").length = 8 := by decide
  simp only [toBytes,namespaceBytes,length_append,hm,u32Bytes_length,h.genesis.2,
    leBytes_length,length_hashes]
  omega

lemma toBytes_le (h : CommitteeHistory) (hs : h.frontier.length = 64) :
    h.toBytes.length ≤ maxBytes := by
  have hp := length_filterMap_le id h.frontier
  rw [toBytes_length,maxBytes]
  omega

lemma fromBytes_eq_ok : fromBytes bytes = .ok h ↔ h.Canonical ∧ bytes = h.toBytes := by
  simp only [fromBytes,bind_eq_ok,ensure_eq_ok,whole_eq_ok,read,bind_run_ok,
    pure_run_ok,expect_run_ok,readU32_run_ok,readFixed_run_ok,
    give_run_ok,failAs_eq_ok,new_eq_ok,readU64_run_ok,remaining_run_ok,
    check_run_ok,exact_readPeaks _ _ _ _ _ _]
  constructor
  · rintro ⟨_,_,_,_,rfl,chainId,_,rfl,gen,_,rfl,_,_,⟨⟨hn,rfl⟩,rfl⟩,es,_,rfl,
      _,_,⟨_,rfl⟩,_,_,⟨_,rfl⟩,frontier,_,⟨⟨hs,ho⟩,rfl⟩,rfl,rfl⟩
    refine ⟨⟨hn.1,hn.2,es.toNat_lt,hs,ho⟩,?_⟩
    simp only [toBytes,namespaceBytes,peakBytes,u64Bytes,append_assoc,append_nil]
  · rintro ⟨hc,rfl⟩
    have he : (UInt64.ofNat h.entries).toNat = h.entries := UInt64.toNat_ofNat_of_lt' hc.bounded
    refine ⟨(),toBytes_le h hc.slots,(),_,rfl,h.chainId,
      h.genesis.1 ++ (leBytes 8 h.entries ++ peakBytes h.frontier),
      by simp only [namespaceBytes,peakBytes,append_assoc],h.genesis,_,rfl,_,_,
      ⟨⟨⟨hc.chainId,hc.genesis⟩,rfl⟩,rfl⟩,UInt64.ofNat h.entries,_,?_,_,_,⟨rfl,rfl⟩,(),_,
      ⟨?_,rfl⟩,h.frontier,[],⟨⟨hc.slots,?_⟩,(append_nil _).symm⟩,?_,rfl⟩
    · rw [u64Bytes,he]
    · rw [peakBytes,length_hashes,peaks_length hc.slots hc.occupied,he]
    · rw [he]
      exact hc.occupied
    · rw [he]

end CommitteeHistory

namespace CommitteeHistoryProof

variable {p : CommitteeHistoryProof}

def raw (p : CommitteeHistoryProof) : Bytes :=
  ascii "ALCHPF01" ++ (leBytes 8 p.entries ++ (leBytes 8 p.height ++ (p.committeeRoot.1 ++
    ([UInt8.ofNat p.siblings.length] ++ p.siblings.flatMap Subtype.val))))

def Canonical (p : CommitteeHistoryProof) : Prop := p.validateShape = .ok () ∧ p.entries < 2 ^ 64

lemma toBytes_eq_ok : p.toBytes = .ok bytes ↔ p.validateShape = .ok () ∧ bytes = p.raw := by
  simp only [toBytes,bind_eq_ok,pure_ok_iff]
  constructor
  · rintro ⟨_,hs,rfl⟩
    exact ⟨hs,rfl⟩
  · rintro ⟨hs,rfl⟩
    exact ⟨(),hs,rfl⟩

lemma bounds_of_shape {u : Unit} (h : p.validateShape = .ok u) :
    p.height ≤ p.entries ∧ p.siblings.length ≤ 64 := by
  obtain ⟨_,hs,-⟩ := bind_eq_ok.mp h
  exact (ensure_eq_ok.mp hs).2

lemma raw_length (h : p.Canonical) : p.raw.length ≤ maxBytes := by
  have hm : (ascii "ALCHPF01").length = 8 := by decide
  have hs := (bounds_of_shape h.1).2
  simp only [raw,length_append,hm,leBytes_length,p.committeeRoot.2,
    length_singleton,length_hashes,maxBytes]
  omega

lemma fromBytes_eq_ok : fromBytes bytes = .ok p ↔ p.Canonical ∧ bytes = p.raw := by
  simp only [fromBytes,bind_eq_ok,ensure_eq_ok,pure_ok_iff,whole_eq_ok]
  constructor
  · rintro ⟨_,_,p,h,_,hs,rfl⟩
    simp only [read,bind_run_ok,pure_run_ok,check_run_ok,
      readExact_run_ok,readU64_run_ok,readFixed_run_ok,
      readU8_run_ok,remaining_run_ok,exact_hashes _ _ _ _] at h
    obtain ⟨_,_,⟨_,rfl⟩,_,_,⟨rfl,rfl⟩,es,_,rfl,height,_,rfl,root,_,rfl,count,_,rfl,
      _,_,⟨_,rfl⟩,_,_,⟨_,rfl⟩,siblings,_,⟨hco,rfl⟩,rfl,rfl⟩ := h
    refine ⟨⟨hs,es.toNat_lt⟩,?_⟩
    simp only [raw,u64Bytes,ofNat_of_length hco,append_nil]
  · rintro ⟨hc,rfl⟩
    obtain ⟨hh,hsi⟩ := bounds_of_shape hc.1
    have hm : (ascii "ALCHPF01").length = 8 := by decide
    have he : (UInt64.ofNat p.entries).toNat = p.entries := UInt64.toNat_ofNat_of_lt' hc.2
    have hl : p.height < 2 ^ 64 := Nat.lt_of_le_of_lt hh hc.2
    have hr : (UInt64.ofNat p.height).toNat = p.height := UInt64.toNat_ofNat_of_lt' hl
    have hco : (UInt8.ofNat p.siblings.length).toNat = p.siblings.length :=
      UInt8.toNat_ofNat_of_lt' (Nat.lt_of_le_of_lt hsi (by decide))
    refine ⟨(),raw_length hc,p,?_,(),hc.1,rfl⟩
    simp only [read,bind_run_ok,pure_run_ok,check_run_ok,
      readExact_run_ok,readU64_run_ok,readFixed_run_ok,
      readU8_run_ok,remaining_run_ok,exact_hashes _ _ _ _,raw,
      leBytes_eq_u64 hc.2,leBytes_eq_u64 hl]
    refine ⟨ascii "ALCHPF01",_,⟨hm,rfl⟩,(),_,⟨rfl,rfl⟩,UInt64.ofNat p.entries,_,rfl,
      UInt64.ofNat p.height,_,rfl,p.committeeRoot,_,rfl,UInt8.ofNat p.siblings.length,_,rfl,_,_,
      ⟨rfl,rfl⟩,(),_,⟨⟨hco.symm ▸ hsi,?_⟩,rfl⟩,p.siblings,[],
      ⟨hco.symm,(append_nil _).symm⟩,?_,rfl⟩
    · rw [length_hashes,hco]
    · rw [he,hr]

end CommitteeHistoryProof

namespace HistoricalEvidence

variable {e : HistoricalEvidence}

def maxBytes : Nat :=
  13 + maxMembers * 48 + CommitteeHistoryProof.maxBytes + DoubleVoteEvidence.encodedLen

/-- The parts of a bundle: how many members, their bytes, the proof and the offence. -/
def readParts : Decoder (Nat × Bytes × Bytes × Bytes) := do
  expect .unsupported (ascii "ALHDEV01")
  let count ← readU8
  check .limitExceeded (count ≠ 0 ∧ count.toNat ≤ maxMembers)
  let members ← readExact (count.toNat * 48)
  let proof ← readFramed CommitteeHistoryProof.maxBytes
  let evidence ← readExact DoubleVoteEvidence.encodedLen
  return (count.toNat, members, proof, evidence)

def fromBytes (c : Suite) (bytes : Bytes) : Except DecodeError HistoricalEvidence := do
  ensure .limitExceeded (bytes.length ≤ maxBytes)
  let (count, members, proof, evidence) ← whole readParts bytes
  let members ← whole (many readValidator count) members
  let history ← CommitteeHistoryProof.fromBytes proof
  let evidence ← DoubleVoteEvidence.decode evidence
  let _ ← failAs .nonCanonical (HistoricalEvidence.context c { members, history, evidence })
  return { members, history, evidence }

def raw (e : HistoricalEvidence) : Bytes :=
  ascii "ALHDEV01" ++ ([UInt8.ofNat e.members.length] ++
    (e.members.flatMap CommitteeState.validatorBytes ++ (framed e.history.raw ++ e.evidence.encode)))

structure Canonical (c : Suite) (e : HistoricalEvidence) : Prop where
  context : ∃ a, e.context c = .ok a
  history : e.history.Canonical
  evidence : e.evidence.sameSlot

lemma toBytes_eq_ok : e.toBytes c = .ok bytes ↔
    (∃ a, e.context c = .ok a) ∧ e.history.validateShape = .ok () ∧ bytes = e.raw := by
  simp only [toBytes,bind_eq_ok,failAs_eq_ok,CommitteeHistoryProof.toBytes_eq_ok,pure_ok_iff]
  constructor
  · rintro ⟨a,hc,_,⟨hs,rfl⟩,rfl⟩
    refine ⟨⟨a,hc⟩,hs,?_⟩
    simp only [raw,framed,append_assoc]
    rfl
  · rintro ⟨⟨a,hc⟩,hs,rfl⟩
    refine ⟨a,hc,_,⟨hs,rfl⟩,?_⟩
    simp only [raw,framed,append_assoc]
    rfl

lemma bounds_of_context {a : AuthenticatedCommittee} (h : e.context c = .ok a) :
    (e.members ≠ [] ∧ e.members.length ≤ maxMembers) ∧ ∀ m ∈ e.members, m.weight < 2 ^ 128 := by
  obtain ⟨_,hsh,hne⟩ := bind_eq_ok.mp h
  obtain ⟨hn,hma,-⟩ := ensure_eq_ok.mp hsh
  obtain ⟨-,hs⟩ := AuthenticatedCommittee.new_ok hne
  refine ⟨⟨hn,hma⟩,fun m hm => ?_⟩
  exact hs.weighed.power_lt (mem_map_of_mem hm)

lemma evidence_length (e : DoubleVoteEvidence) : e.encode.length = DoubleVoteEvidence.encodedLen := by
  have hm : (ascii "ALDV").length = 4 := by decide
  simp only [DoubleVoteEvidence.encode,length_append,hm,u32Bytes_length,Vote.encode_length,
    DoubleVoteEvidence.encodedLen]

lemma raw_length (h : e.Canonical c) : e.raw.length ≤ maxBytes := by
  have hm : (ascii "ALHDEV01").length = 8 := by decide
  obtain ⟨a,hc⟩ := h.context
  have hme := (bounds_of_context hc).1.2
  have hp := CommitteeHistoryProof.raw_length h.history
  simp only [raw,length_append,hm,length_singleton,CommitteeState.roster_length,
    framed_length,evidence_length,maxBytes]
  omega

lemma fromBytes_eq_ok : fromBytes c bytes = .ok e ↔ e.Canonical c ∧ bytes = e.raw := by
  simp only [fromBytes,bind_eq_ok,ensure_eq_ok,pure_ok_iff,whole_eq_ok,
    readParts,bind_run_ok,pure_run_ok,expect_run_ok,readU8_run_ok,
    check_run_ok,readExact_run_ok,readFramed_run_ok,Prod.exists,
    Prod.mk.injEq,exact_readValidator.many _ _ _ _,CommitteeHistoryProof.fromBytes_eq_ok,
    DoubleVoteEvidence.decode_eq_ok,failAs_eq_ok]
  constructor
  · rintro ⟨_,_,_,_,_,_,⟨_,_,rfl,count,_,rfl,_,_,⟨_,rfl⟩,_,_,⟨_,rfl⟩,_,_,⟨_,rfl⟩,_,
      _,⟨_,rfl⟩,⟨rfl,rfl,rfl,rfl⟩,rfl⟩,members,⟨⟨hco,_⟩,rfl⟩,history,⟨hh,rfl⟩,
      evidence,⟨hs,rfl⟩,a,hc,rfl⟩
    refine ⟨⟨⟨a,hc⟩,hh,hs⟩,?_⟩
    simp only [raw,ofNat_of_length hco,append_nil]
  · rintro ⟨h,rfl⟩
    obtain ⟨a,hc⟩ := h.context
    obtain ⟨⟨hn,hm⟩,hw⟩ := bounds_of_context hc
    have hco : (UInt8.ofNat e.members.length).toNat = e.members.length := toNat_ofNat_length hm
    have hp := CommitteeHistoryProof.raw_length h.history
    refine ⟨(),raw_length h,e.members.length,e.members.flatMap CommitteeState.validatorBytes,
      e.history.raw,e.evidence.encode,⟨(),_,rfl,UInt8.ofNat e.members.length,_,rfl,(),_,
        ⟨⟨count_ne_zero hn hm,hco.symm ▸ hm⟩,rfl⟩,_,_,⟨?_,rfl⟩,e.history.raw,_,
        ⟨⟨hp,Nat.lt_of_le_of_lt hp (by decide)⟩,rfl⟩,e.evidence.encode,[],
        ⟨evidence_length _,(append_nil _).symm⟩,⟨hco,rfl,rfl,rfl⟩,rfl⟩,e.members,
      ⟨⟨rfl,hw⟩,(append_nil _).symm⟩,e.history,⟨h.history,rfl⟩,e.evidence,
      ⟨h.evidence,rfl⟩,a,hc,rfl⟩
    rw [hco,CommitteeState.roster_length]

end HistoricalEvidence

namespace AdmissionIntent

def encodedLen : Nat := 140

def read : Decoder AdmissionIntent := do
  let chainId ← readU32
  let genesis ← readFixed 32
  let height ← readU64
  let parent ← readFixed 32
  let committeeRoot ← readFixed 32
  let publicKey ← readFixed 32
  return { chainId, genesis, height, parent, committeeRoot, publicKey }

def fromBytes (c : Suite) (bytes : Bytes) : Except DecodeError AdmissionIntent := do
  ensure .nonCanonical (bytes.length = encodedLen)
  let i ← whole read bytes
  i.validate c
  return i

lemma toBytes_length (i : AdmissionIntent) : i.toBytes.length = encodedLen := by
  simp only [toBytes,length_append,u32Bytes_length,u64Bytes_length,i.genesis.2,i.parent.2,
    i.committeeRoot.2,i.publicKey.2,encodedLen]

lemma fromBytes_eq_ok {i : AdmissionIntent} :
    fromBytes c bytes = .ok i ↔ i.validate c = .ok () ∧ bytes = i.toBytes := by
  simp only [fromBytes,bind_eq_ok,ensure_eq_ok,pure_ok_iff,whole_eq_ok,read,
    bind_run_ok,pure_run_ok,readU32_run_ok,readU64_run_ok,
    readFixed_run_ok]
  constructor
  · rintro ⟨_,_,_,⟨chainId,_,rfl,gen,_,rfl,height,_,rfl,par,_,rfl,root,_,rfl,key,
      _,rfl,rfl,rfl⟩,_,hv,rfl⟩
    refine ⟨hv,?_⟩
    rw [append_nil,toBytes]
  · rintro ⟨hv,rfl⟩
    exact ⟨(),i.toBytes_length,i,⟨i.chainId,_,rfl,i.genesis,_,rfl,i.height,_,rfl,i.parent,_,
      rfl,i.committeeRoot,_,rfl,i.publicKey,[],(append_nil _).symm,rfl,rfl⟩,(),hv,rfl⟩

end AdmissionIntent

namespace AdmissionRequest

def encodedLen : Nat := 8 + AdmissionIntent.encodedLen + 64

def read (c : Suite) : Decoder AdmissionRequest := do
  expect .unsupported (ascii "ALADRQ01")
  let bytes ← readExact AdmissionIntent.encodedLen
  let intent ← give (AdmissionIntent.fromBytes c bytes)
  let consent ← readFixed 64
  return { intent, consent }

def fromBytes (c : Suite) (bytes : Bytes) : Except DecodeError AdmissionRequest := do
  ensure .nonCanonical (bytes.length = encodedLen)
  whole (read c) bytes

def raw (r : AdmissionRequest) : Bytes := ascii "ALADRQ01" ++ (r.intent.toBytes ++ r.consent.1)

lemma raw_length (r : AdmissionRequest) : r.raw.length = encodedLen := by
  have hm : (ascii "ALADRQ01").length = 8 := by decide
  simp only [raw,length_append,hm,AdmissionIntent.toBytes_length,r.consent.2,encodedLen, Nat.add_assoc]

lemma writes : Writes (toBytes c) raw fun r => r.intent.validate c = .ok () := by
  intro r bytes
  simp only [toBytes,bind_eq_ok,pure_ok_iff]
  constructor
  · rintro ⟨_,hv,rfl⟩
    exact ⟨hv,rfl⟩
  · rintro ⟨hv,rfl⟩
    exact ⟨(),hv,rfl⟩

lemma fromBytes_eq_ok {r : AdmissionRequest} :
    fromBytes c bytes = .ok r ↔ r.intent.validate c = .ok () ∧ bytes = r.raw := by
  simp only [fromBytes,bind_eq_ok,ensure_eq_ok,whole_eq_ok,read,bind_run_ok,
    pure_run_ok,expect_run_ok,readExact_run_ok,give_run_ok,
    AdmissionIntent.fromBytes_eq_ok,readFixed_run_ok]
  constructor
  · rintro ⟨_,_,_,_,rfl,_,_,⟨_,rfl⟩,intent,_,⟨⟨hv,rfl⟩,rfl⟩,consent,_,rfl,rfl,rfl⟩
    refine ⟨hv,?_⟩
    rw [append_nil,raw]
  · rintro ⟨hv,rfl⟩
    exact ⟨(),r.raw_length,(),_,rfl,_,_,⟨r.intent.toBytes_length,rfl⟩,r.intent,_,
      ⟨⟨hv,rfl⟩,rfl⟩,r.consent,[],(append_nil _).symm,rfl,rfl⟩

end AdmissionRequest

namespace AdmissionCertificate

def maxBytes : Nat := 9 + AdmissionRequest.encodedLen + 96 * maxRotationValidators

def readApproval (request : Hash256) : Decoder Approval := do
  let voter ← readFixed 32
  let signature ← readFixed 64
  return { request, voter, signature }

def read (c : Suite) : Decoder AdmissionCertificate := do
  expect .unsupported (ascii "ALADCT01")
  let bytes ← readExact AdmissionRequest.encodedLen
  let count ← readU8
  check .limitExceeded (count ≠ 0 ∧ count.toNat ≤ maxRotationValidators)
  let remaining ← Decoder.remaining
  check .nonCanonical (remaining = count.toNat * 96)
  let request ← give (AdmissionRequest.fromBytes c bytes)
  let approvals ← many (readApproval (request.id c)) count.toNat
  return { request, approvals }

def fromBytes (c : Suite) (bytes : Bytes) : Except DecodeError AdmissionCertificate := do
  ensure .limitExceeded (bytes.length ≤ maxBytes)
  let a ← whole (read c) bytes
  a.validateShape c
  return a

def approvalBytes (p : Approval) : Bytes := p.voter.1 ++ p.signature.1

def raw (a : AdmissionCertificate) : Bytes :=
  ascii "ALADCT01" ++ (a.request.raw ++ ([UInt8.ofNat a.approvals.length] ++
    a.approvals.flatMap approvalBytes))

variable {a : AdmissionCertificate}

lemma parts_of_shape {u : Unit} (h : a.validateShape c = .ok u) :
    a.request.intent.validate c = .ok () ∧
      (a.approvals ≠ [] ∧ a.approvals.length ≤ maxRotationValidators) ∧
      ∀ p ∈ a.approvals, p.request = a.request.id c := by
  simp only [validateShape,bind_eq_ok,ensure_eq_ok] at h
  obtain ⟨_,hi,_,hl,_,ha⟩ := h
  exact ⟨hi,hl,fun p hp => (ha p hp).2⟩

lemma writes : Writes (toBytes c) raw fun a => a.validateShape c = .ok () := by
  intro a bytes
  simp only [toBytes,bind_eq_ok,AdmissionRequest.writes _ _,pure_ok_iff]
  constructor
  · rintro ⟨_,hs,_,⟨_,rfl⟩,rfl⟩
    exact ⟨hs,rfl⟩
  · rintro ⟨hs,rfl⟩
    exact ⟨(),hs,_,⟨(parts_of_shape hs).1,rfl⟩,rfl⟩

lemma exact_readApproval (req : Hash256) :
    Exact (readApproval req) approvalBytes (·.request = req) := by
  intro bytes p rest
  simp only [readApproval,bind_run_ok,pure_run_ok,readFixed_run_ok,approvalBytes,append_assoc]
  constructor
  · rintro ⟨voter,_,rfl,sig,_,rfl,rfl,rfl⟩
    exact ⟨rfl,rfl⟩
  · rintro ⟨rfl,rfl⟩
    exact ⟨p.voter,_,rfl,p.signature,_,rfl,rfl,rfl⟩

lemma approvals_length (approvals : List Approval) :
    (approvals.flatMap approvalBytes).length = approvals.length * 96 := by
  refine length_flatMap_of fun p _ => ?_
  rw [approvalBytes,length_append,p.voter.2,p.signature.2]

lemma raw_length (h : a.validateShape c = .ok ()) : a.raw.length ≤ maxBytes := by
  have hm : (ascii "ALADCT01").length = 8 := by decide
  have hma := (parts_of_shape h).2.1.2
  simp only [raw,length_append,hm,AdmissionRequest.raw_length,length_singleton,
    approvals_length,maxBytes]
  omega

lemma fromBytes_eq_ok : fromBytes c bytes = .ok a ↔ a.validateShape c = .ok () ∧ bytes = a.raw := by
  simp only [fromBytes,bind_eq_ok,ensure_eq_ok,pure_ok_iff,whole_eq_ok,read,
    bind_run_ok,pure_run_ok,expect_run_ok,readExact_run_ok,
    readU8_run_ok,check_run_ok,remaining_run_ok,give_run_ok,
    AdmissionRequest.fromBytes_eq_ok,(exact_readApproval _).many _ _ _ _]
  constructor
  · rintro ⟨_,_,_,⟨_,_,rfl,_,_,⟨_,rfl⟩,count,_,rfl,_,_,⟨_,rfl⟩,_,_,⟨_,rfl⟩,_,_,
      ⟨_,rfl⟩,request,_,⟨⟨_,rfl⟩,rfl⟩,approvals,_,⟨⟨hc,_⟩,rfl⟩,rfl,rfl⟩,_,hs,rfl⟩
    refine ⟨hs,?_⟩
    simp only [raw,ofNat_of_length hc,append_nil]
  · rintro ⟨hs,rfl⟩
    obtain ⟨hi,⟨hn,hm⟩,ha⟩ := parts_of_shape hs
    have hc := toNat_ofNat_length hm
    refine ⟨(),raw_length hs,a,⟨(),_,rfl,_,_,⟨a.request.raw_length,rfl⟩,
      UInt8.ofNat a.approvals.length,_,rfl,(),_,⟨⟨count_ne_zero hn hm,hc.symm ▸ hm⟩,rfl⟩,_,_,
      ⟨rfl,rfl⟩,(),_,⟨?_,rfl⟩,a.request,_,⟨⟨hi,rfl⟩,rfl⟩,a.approvals,[],
      ⟨⟨hc.symm,ha⟩,(append_nil _).symm⟩,rfl,rfl⟩,(),hs,rfl⟩
    rw [approvals_length,hc]

end AdmissionCertificate

namespace GovernanceIntent

def encodedLen : Nat := 188

def read : Decoder GovernanceIntent := do
  expect .unsupported (ascii "ALGVRQ01")
  let chainId ← readU32
  let genesis ← readFixed 32
  let height ← readU64
  let parent ← readFixed 32
  let committeeRoot ← readFixed 32
  let activateAt ← readU64
  let capacity ← readResources
  let prices ← readResources
  return { chainId, genesis, height, parent, committeeRoot, activateAt, capacity, prices }

def fromBytes (bytes : Bytes) : Except DecodeError GovernanceIntent := do
  ensure .nonCanonical (bytes.length = encodedLen)
  let i ← whole read bytes
  i.validate
  return i

lemma toBytes_length (i : GovernanceIntent) : i.toBytes.length = encodedLen := by
  have hm : (ascii "ALGVRQ01").length = 8 := by decide
  simp only [toBytes,length_append,hm,u32Bytes_length,u64Bytes_length,i.genesis.2,
    i.parent.2,i.committeeRoot.2,Resources.bytes_length,encodedLen]

lemma fromBytes_eq_ok {i : GovernanceIntent} :
    fromBytes bytes = .ok i ↔ i.validate = .ok () ∧ bytes = i.toBytes := by
  simp only [fromBytes,bind_eq_ok,ensure_eq_ok,pure_ok_iff,whole_eq_ok,read,
    bind_run_ok,pure_run_ok,expect_run_ok,readU32_run_ok,
    readU64_run_ok,readFixed_run_ok,readResources_run_ok]
  constructor
  · rintro ⟨_,_,_,⟨_,_,rfl,chainId,_,rfl,gen,_,rfl,height,_,rfl,par,_,rfl,root,_,
      rfl,activateAt,_,rfl,capacity,_,rfl,prices,_,rfl,rfl,rfl⟩,_,hv,rfl⟩
    refine ⟨hv,?_⟩
    rw [append_nil,toBytes]
  · rintro ⟨hv,rfl⟩
    exact ⟨(),i.toBytes_length,i,⟨(),_,rfl,i.chainId,_,rfl,i.genesis,_,rfl,i.height,_,rfl,
      i.parent,_,rfl,i.committeeRoot,_,rfl,i.activateAt,_,rfl,i.capacity,_,rfl,i.prices,[],
      (append_nil _).symm,rfl,rfl⟩,(),hv,rfl⟩

end GovernanceIntent

namespace GovernanceCertificate

def approvalLen : Nat := 136

def maxBytes : Nat := 9 + GovernanceIntent.encodedLen + maxRotationValidators * approvalLen

def readApproval : Decoder Approval := do
  expect .unsupported (ascii "ALGVAP01")
  let request ← readFixed 32
  let voter ← readFixed 32
  let signature ← readFixed 64
  return { request, voter, signature }

def approvalFromBytes (bytes : Bytes) : Except DecodeError Approval := whole readApproval bytes

def readChunk : Decoder Approval := do
  let chunk ← readExact approvalLen
  give (approvalFromBytes chunk)

def read : Decoder GovernanceCertificate := do
  expect .unsupported (ascii "ALGVCF01")
  let bytes ← readExact GovernanceIntent.encodedLen
  let request ← give (GovernanceIntent.fromBytes bytes)
  let count ← readU8
  let remaining ← Decoder.remaining
  check .nonCanonical (count ≠ 0 ∧ count.toNat ≤ maxRotationValidators ∧
    remaining = count.toNat * approvalLen)
  let approvals ← many readChunk count.toNat
  return { request, approvals }

def fromBytes (H : Hasher) (bytes : Bytes) : Except DecodeError GovernanceCertificate := do
  ensure .limitExceeded (bytes.length ≤ maxBytes)
  let g ← whole read bytes
  g.validateShape H
  return g

def raw (g : GovernanceCertificate) : Bytes :=
  ascii "ALGVCF01" ++ (g.request.toBytes ++ ([UInt8.ofNat g.approvals.length] ++
    g.approvals.flatMap approvalBytes))

variable {H : Hasher} {g : GovernanceCertificate}

lemma writes : Writes (toBytes H) raw fun g => g.validateShape H = .ok () := by
  intro g bytes
  simp only [toBytes,bind_eq_ok,pure_ok_iff]
  constructor
  · rintro ⟨_,hs,rfl⟩
    exact ⟨hs,rfl⟩
  · rintro ⟨hs,rfl⟩
    exact ⟨(),hs,rfl⟩

lemma approvalBytes_length (p : Approval) : (approvalBytes p).length = approvalLen := by
  have hm : (ascii "ALGVAP01").length = 8 := by decide
  simp only [approvalBytes,length_append,hm,p.request.2,p.voter.2,p.signature.2,approvalLen]

lemma approvalFromBytes_eq_ok {p : Approval} :
    approvalFromBytes bytes = .ok p ↔ True ∧ bytes = approvalBytes p := by
  simp only [approvalFromBytes,whole_eq_ok,readApproval,bind_run_ok,
    pure_run_ok,expect_run_ok,readFixed_run_ok,true_and]
  constructor
  · rintro ⟨_,_,rfl,req,_,rfl,voter,_,rfl,sig,_,rfl,rfl,rfl⟩
    rw [append_nil,approvalBytes]
  · rintro rfl
    exact ⟨(),_,rfl,p.request,_,rfl,p.voter,_,rfl,p.signature,[],(append_nil _).symm,rfl, rfl⟩

lemma exact_approvals (count : Nat) :
    Exact (many readChunk count) (·.flatMap approvalBytes) (·.length = count) := by
  have ho : Exact readChunk approvalBytes fun _ => True :=
    Exact.sliced (fun _ _ => approvalFromBytes_eq_ok) fun p _ => approvalBytes_length p
  intro bytes l rest
  rw [ho.many count bytes l rest]
  simp

lemma parts_of_shape {u : Unit} (h : g.validateShape H = .ok u) :
    g.request.validate = .ok () ∧ g.approvals ≠ [] ∧ g.approvals.length ≤ maxRotationValidators := by
  simp only [validateShape,bind_eq_ok,ensure_eq_ok] at h
  obtain ⟨_,hr,_,hl,_⟩ := h
  exact ⟨hr,hl⟩

lemma approvals_length (approvals : List Approval) :
    (approvals.flatMap approvalBytes).length = approvals.length * approvalLen :=
  length_flatMap_of fun p _ => approvalBytes_length p

lemma raw_length (h : g.validateShape H = .ok ()) : g.raw.length ≤ maxBytes := by
  have hm : (ascii "ALGVCF01").length = 8 := by decide
  have hma := (parts_of_shape h).2.2
  have hl := Nat.mul_le_mul_right approvalLen hma
  simp only [raw,length_append,hm,GovernanceIntent.toBytes_length,length_singleton,
    approvals_length,maxBytes]
  omega

lemma fromBytes_eq_ok : fromBytes H bytes = .ok g ↔ g.validateShape H = .ok () ∧ bytes = g.raw := by
  simp only [fromBytes,bind_eq_ok,ensure_eq_ok,pure_ok_iff,whole_eq_ok,read,
    bind_run_ok,pure_run_ok,expect_run_ok,readExact_run_ok,
    readU8_run_ok,check_run_ok,remaining_run_ok,give_run_ok,
    GovernanceIntent.fromBytes_eq_ok,exact_approvals _ _ _ _]
  constructor
  · rintro ⟨_,_,_,⟨_,_,rfl,_,_,⟨_,rfl⟩,req,_,⟨⟨_,rfl⟩,rfl⟩,count,_,rfl,_,_,⟨_,rfl⟩,
      _,_,⟨_,rfl⟩,approvals,_,⟨hc,rfl⟩,rfl,rfl⟩,_,hs,rfl⟩
    refine ⟨hs,?_⟩
    simp only [raw,ofNat_of_length hc,append_nil]
  · rintro ⟨hs,rfl⟩
    obtain ⟨hr,hn,hm⟩ := parts_of_shape hs
    have hc := toNat_ofNat_length hm
    refine ⟨(),raw_length hs,g,⟨(),_,rfl,_,_,⟨g.request.toBytes_length,rfl⟩,g.request,_,
      ⟨⟨hr,rfl⟩,rfl⟩,UInt8.ofNat g.approvals.length,_,rfl,_,_,⟨rfl,rfl⟩,(),_,
      ⟨⟨count_ne_zero hn hm,hc.symm ▸ hm,?_⟩,rfl⟩,g.approvals,[],
      ⟨hc.symm,(append_nil _).symm⟩,rfl,rfl⟩,(),hs,rfl⟩
    rw [approvals_length,hc]

end GovernanceCertificate

namespace GovernancePolicy

def encodedLen : Nat := 104

def read : Decoder GovernancePolicy := do
  let epochBlocks ← readU64
  let minimumCapacity ← readResources
  let maximumCapacity ← readResources
  let maximumPrices ← readResources
  return { epochBlocks, minimumCapacity, maximumCapacity, maximumPrices }

def fromBytes (bytes : Bytes) : Except DecodeError GovernancePolicy := do
  let p ← whole read bytes
  failAs .nonCanonical p.validate
  return p

lemma toBytes_length (p : GovernancePolicy) : p.toBytes.length = encodedLen := by
  simp only [toBytes,length_append,u64Bytes_length,Resources.bytes_length,encodedLen]

lemma fromBytes_eq_ok {p : GovernancePolicy} :
    fromBytes bytes = .ok p ↔ p.validate = .ok () ∧ bytes = p.toBytes := by
  simp only [fromBytes,bind_eq_ok,failAs_eq_ok,pure_ok_iff,whole_eq_ok,read,
    bind_run_ok,pure_run_ok,readU64_run_ok,readResources_run_ok]
  constructor
  · rintro ⟨_,⟨epochBlocks,_,rfl,least,_,rfl,most,_,rfl,prices,_,rfl,rfl,rfl⟩,_,hv,rfl⟩
    refine ⟨hv,?_⟩
    rw [append_nil,toBytes]
  · rintro ⟨hv,rfl⟩
    exact ⟨p,⟨p.epochBlocks,_,rfl,p.minimumCapacity,_,rfl,p.maximumCapacity,_,rfl,
      p.maximumPrices,[],(append_nil _).symm,rfl,rfl⟩,(),hv,rfl⟩

end GovernancePolicy

namespace GovernanceState

def maxBytes : Nat := 249

def readParameters : Decoder NetworkParameters := do
  let capacity ← readResources
  let prices ← readResources
  return { capacity, prices }

def readPending : Decoder (Option (UInt64 × NetworkParameters)) := do
  let flag ← readU8
  if flag = 0 then return none
  else if flag = 1 then do
    let height ← readU64
    let parameters ← readParameters
    return some (height, parameters)
  else give (.error .nonCanonical)

def read : Decoder GovernanceState := do
  expect .unsupported (ascii "ALGVST01")
  let bytes ← readExact GovernancePolicy.encodedLen
  let policy ← give (GovernancePolicy.fromBytes bytes)
  let active ← readParameters
  let pending ← readPending
  return { policy, active, pending }

/-- The checks of `from_bytes` on a queued update. -/
def checkPending (policy : GovernancePolicy) :
    Option (UInt64 × NetworkParameters) → Except DecodeError Unit
  | none => .ok ()
  | some (height, parameters) => do
    ensure .nonCanonical (1 < height.toNat ∧ (height.toNat - 1) % policy.epochBlocks.toNat = 0)
    failAs .nonCanonical (policy.permits parameters)

def fromBytes (bytes : Bytes) : Except DecodeError GovernanceState := do
  ensure .limitExceeded (bytes.length ≤ maxBytes)
  let g ← whole read bytes
  failAs .nonCanonical (g.policy.permits g.active)
  checkPending g.policy g.pending
  return g

structure Canonical (g : GovernanceState) : Prop where
  active : g.policy.permits g.active = .ok ()
  pending : checkPending g.policy g.pending = .ok ()

variable {g : GovernanceState} {rest : Bytes}

lemma readParameters_run_ok {p : NetworkParameters} :
    readParameters.run bytes = .ok (p,rest) ↔ bytes = parameterBytes p ++ rest := by
  simp only [readParameters,bind_run_ok,pure_run_ok,readResources_run_ok, parameterBytes,append_assoc]
  constructor
  · rintro ⟨cap,_,rfl,prices,_,rfl,rfl,rfl⟩
    rfl
  · rintro rfl
    exact ⟨p.capacity,_,rfl,p.prices,_,rfl,rfl,rfl⟩

lemma readPending_run_ok {pending : Option (UInt64 × NetworkParameters)} :
    readPending.run bytes = .ok (pending,rest) ↔ bytes = pendingBytes pending ++ rest := by
  constructor
  · intro h
    obtain ⟨flag,middle,hf,hr⟩ := bind_run_ok.mp h
    obtain rfl := readU8_run_ok.mp hf
    split_ifs at hr with h0 h1
    · obtain ⟨rfl,rfl⟩ := pure_run_ok.mp hr
      rw [h0,pendingBytes]
    · simp only [bind_run_ok,pure_run_ok,readU64_run_ok,readParameters_run_ok] at hr
      obtain ⟨height,_,rfl,params,_,rfl,rfl,rfl⟩ := hr
      simp only [h1,pendingBytes,append_assoc]
    · cases (give_run_ok.mp hr).1
  · rintro rfl
    match pending with
    | none => exact bind_run_ok.mpr ⟨0,rest,rfl,rfl⟩
    | some (height,params) =>
      refine bind_run_ok.mpr ⟨1,u64Bytes height ++ (parameterBytes params ++ rest),?_,?_⟩
      · simp only [pendingBytes,append_assoc]
        rfl
      · simp only [if_neg (by decide : ¬(1 : UInt8) = 0),if_pos,bind_run_ok,pure_run_ok,
          readU64_run_ok,readParameters_run_ok]
        exact ⟨height,_,rfl,params,_,rfl,rfl,rfl⟩

lemma parameterBytes_length (p : NetworkParameters) : (parameterBytes p).length = 64 := by
  rw [parameterBytes,length_append,Resources.bytes_length,Resources.bytes_length]

lemma toBytes_length (g : GovernanceState) : g.toBytes.length ≤ maxBytes := by
  have hm : (ascii "ALGVST01").length = 8 := by decide
  have hp : (pendingBytes g.pending).length ≤ 73 := by
    match g.pending with
    | none => simp [pendingBytes]
    | some (height,params) =>
      simp only [pendingBytes,length_append,length_singleton,u64Bytes_length, parameterBytes_length]
      omega
  simp only [toBytes,length_append,hm,GovernancePolicy.toBytes_length,
    GovernancePolicy.encodedLen,parameterBytes_length,maxBytes]
  omega

lemma validate_of_permits {policy : GovernancePolicy} {value : NetworkParameters} {u : Unit}
    (h : policy.permits value = .ok u) : policy.validate = .ok () := by
  obtain ⟨_,hv,-⟩ := bind_eq_ok.mp h
  exact hv

lemma fromBytes_eq_ok : fromBytes bytes = .ok g ↔ g.Canonical ∧ bytes = g.toBytes := by
  simp only [fromBytes,bind_eq_ok,ensure_eq_ok,failAs_eq_ok,pure_ok_iff,
    whole_eq_ok,read,bind_run_ok,pure_run_ok,expect_run_ok,
    readExact_run_ok,give_run_ok,GovernancePolicy.fromBytes_eq_ok,
    readParameters_run_ok,readPending_run_ok]
  constructor
  · rintro ⟨_,_,_,⟨_,_,rfl,_,_,⟨_,rfl⟩,policy,_,⟨⟨_,rfl⟩,rfl⟩,active,_,rfl,pending,_,
      rfl,rfl,rfl⟩,_,ha,_,hp,rfl⟩
    refine ⟨⟨ha,hp⟩,?_⟩
    rw [append_nil,toBytes]
  · rintro ⟨h,rfl⟩
    exact ⟨(),g.toBytes_length,g,⟨(),_,rfl,_,_,⟨g.policy.toBytes_length,rfl⟩,g.policy,_,
      ⟨⟨validate_of_permits h.active,rfl⟩,rfl⟩,g.active,_,rfl,g.pending,[],
      (append_nil _).symm,rfl,rfl⟩,(),h.active,(),h.pending,rfl⟩

end GovernanceState

end Astrolune.Consensus
