import Astrolune.Consensus.Nested
import Astrolune.Consensus.Potb

namespace Astrolune
open Lib Codec Decoder Reader List

variable {bytes rest : Bytes}

namespace Genesis

def readCount (maximum : Nat) : Decoder Nat := do
  let count ← readU64
  check .limitExceeded (count.toNat ≤ maximum)
  return count.toNat

def readValidator : Decoder GenesisValidator := do
  let id ← readFixed 32
  let weight ← readU128
  return { id, weight }

def readAllocation : Decoder Allocation := do
  let address ← readFixed 32
  let amount ← readU64
  return { address, amount }

def read : Decoder Genesis := do
  let version ← readU16
  check .unsupported (version = genesisVersion ∨ version = rotatingGenesisVersion)
  let chainId ← readU32
  let capacity ← readResources
  let committeeSize ← readCount maxGenesisValidators
  let rotationCount ← readCount maxGenesisValidators
  let runtimeVersion ← readU32
  let validatorLen ← readCount maxGenesisValidators
  let validators ← many readValidator validatorLen
  let allocationLen ← readCount maxGenesisAllocations
  let allocations ← many readAllocation allocationLen
  return { version, chainId, capacity, committeeSize, rotationCount, runtimeVersion, validators,
           allocations }

def decode (bytes : Bytes) : Except DecodeError Genesis := do
  ensure .limitExceeded (bytes.length ≤ maxGenesisBytes)
  let g ← whole read bytes
  failAs .nonCanonical g.validate
  return g

lemma readCount_run_ok {maximum n : Nat} (hm : maximum < 2 ^ 64) :
    (readCount maximum).run bytes = .ok (n,rest) ↔ n ≤ maximum ∧ bytes = leBytes 8 n ++ rest := by
  simp only [readCount,bind_run_ok,pure_run_ok,readU64_run_ok,check_run_ok]
  constructor
  · rintro ⟨count,_,rfl,_,_,⟨hc,rfl⟩,rfl,rfl⟩
    exact ⟨hc,rfl⟩
  · rintro ⟨hn,rfl⟩
    have hl := Nat.lt_of_le_of_lt hn hm
    have hc : (UInt64.ofNat n).toNat = n := UInt64.toNat_ofNat_of_lt' hl
    rw [leBytes_eq_u64 hl]
    exact ⟨UInt64.ofNat n,rest,rfl,(),_,⟨hc.symm ▸ hn,rfl⟩,hc,rfl⟩

lemma exact_readValidator : Exact readValidator validatorBytes fun v => v.weight < 2 ^ 128 := by
  intro bytes v rest
  simp only [readValidator,bind_run_ok,pure_run_ok,readFixed_run_ok,
    readU128_run_ok,validatorBytes,append_assoc]
  constructor
  · rintro ⟨id,_,rfl,wt,_,⟨hw,rfl⟩,rfl,rfl⟩
    exact ⟨hw,rfl⟩
  · rintro ⟨hw,rfl⟩
    exact ⟨v.id,_,rfl,v.weight,_,⟨hw,rfl⟩,rfl,rfl⟩

lemma exact_readAllocation : Exact readAllocation allocationBytes fun _ => True := by
  intro bytes a rest
  simp only [readAllocation,bind_run_ok,pure_run_ok,readFixed_run_ok,
    readU64_run_ok,allocationBytes,append_assoc,true_and]
  constructor
  · rintro ⟨addr,_,rfl,amount,_,rfl,rfl,rfl⟩
    rfl
  · rintro rfl
    exact ⟨a.address,_,rfl,a.amount,_,rfl,rfl,rfl⟩

variable {g : Genesis}

structure Bounded (g : Genesis) : Prop where
  version : g.version = genesisVersion ∨ g.version = rotatingGenesisVersion
  committee : g.committeeSize ≤ maxGenesisValidators
  rotation : g.rotationCount ≤ maxGenesisValidators
  validators : g.validators.length ≤ maxGenesisValidators
  allocations : g.allocations.length ≤ maxGenesisAllocations
  weights : ∀ v ∈ g.validators, v.weight < 2 ^ 128

lemma weights_of_fit {validators : List GenesisValidator} {start : Nat}
    (h : (validators.foldlM (fun sum v => Consensus.checkedAdd128 sum v.weight) start).isSome) :
    ∀ v ∈ validators, v.weight < 2 ^ 128 := by
  induction validators generalizing start with
  | nil => simp
  | cons v validators ih =>
    rw [foldlM_cons] at h
    cases ha : Consensus.checkedAdd128 start v.weight with
    | none => simp [ha] at h
    | some next =>
      rw [ha] at h
      have := Consensus.checkedAdd128_eq_some.mp ha
      exact forall_mem_cons.mpr ⟨by omega,ih h⟩

lemma bounded_of_validate {u : Unit} (h : g.validate = .ok u) : g.Bounded := by
  simp only [validate,bind_eq_ok,ensure_eq_ok] at h
  obtain ⟨_,hve,_,_,_,_,_,⟨hv,ha⟩,_,_,_,⟨_,_,hr,hc⟩,_,⟨_,_,hw⟩,_⟩ := h
  have hs := hc.trans hv
  exact ⟨hve,hs,hr.trans hs,hv,ha,weights_of_fit hw⟩

lemma validators_length (validators : List GenesisValidator) :
    (validators.flatMap validatorBytes).length = validators.length * 48 := by
  refine length_flatMap_of fun v _ => ?_
  rw [validatorBytes,length_append,v.id.2,leBytes_length]

lemma allocations_length (allocations : List Allocation) :
    (allocations.flatMap allocationBytes).length = allocations.length * 40 := by
  refine length_flatMap_of fun a _ => ?_
  rw [allocationBytes,length_append,a.address.2,u64Bytes_length]

lemma toBytes_length (h : g.Bounded) : g.toBytes.length ≤ maxGenesisBytes := by
  have hv := h.validators
  have ha := h.allocations
  simp only [toBytes,length_append,u16Bytes_length,u32Bytes_length,Resources.bytes_length,
    leBytes_length,validators_length,allocations_length,maxGenesisBytes]
  omega

lemma decode_eq_ok : decode bytes = .ok g ↔ g.validate = .ok () ∧ bytes = g.toBytes := by
  have hc : maxGenesisValidators < 2 ^ 64 := by decide
  have hc' : maxGenesisAllocations < 2 ^ 64 := by decide
  simp only [decode,bind_eq_ok,ensure_eq_ok,failAs_eq_ok,pure_ok_iff,
    whole_eq_ok,read,bind_run_ok,pure_run_ok,check_run_ok,
    readU16_run_ok,readU32_run_ok,readResources_run_ok,readCount_run_ok hc,
    readCount_run_ok hc',exact_readValidator.many _ _ _ _,exact_readAllocation.many _ _ _ _]
  constructor
  · rintro ⟨_,_,_,⟨version,_,rfl,_,_,⟨_,rfl⟩,chainId,_,rfl,cap,_,rfl,com,_,
      ⟨_,rfl⟩,rotation,_,⟨_,rfl⟩,runtime,_,rfl,_,_,⟨_,rfl⟩,validators,_,⟨⟨rfl,_⟩,rfl⟩,_,_,
      ⟨_,rfl⟩,allocations,_,⟨⟨rfl,_⟩,rfl⟩,rfl,rfl⟩,_,hv,rfl⟩
    refine ⟨hv,?_⟩
    rw [append_nil,toBytes]
  · rintro ⟨hv,rfl⟩
    have h := bounded_of_validate hv
    exact ⟨(),toBytes_length h,g,⟨g.version,_,rfl,(),_,⟨h.version,rfl⟩,g.chainId,_,rfl,
      g.capacity,_,rfl,g.committeeSize,_,⟨h.committee,rfl⟩,g.rotationCount,_,⟨h.rotation,rfl⟩,
      g.runtimeVersion,_,rfl,g.validators.length,_,⟨h.validators,rfl⟩,g.validators,_,
      ⟨⟨rfl,h.weights⟩,rfl⟩,g.allocations.length,_,⟨h.allocations,rfl⟩,g.allocations,[],
      ⟨⟨rfl,fun _ _ => trivial⟩,(append_nil _).symm⟩,rfl,rfl⟩,(),hv,rfl⟩

end Genesis
end Astrolune

namespace Astrolune.Consensus
open Lib Codec Crypto Decoder Reader List

variable {c : Suite} {bytes rest : Bytes}

def readVersion (first second : Bytes) : Decoder Bool := do
  let tag ← readExact 8
  give (if tag = first then .ok false else if tag = second then .ok true
    else .error .unsupported)

lemma readVersion_run_ok {first second : String} (hf : (ascii first).length = 8)
    (hs : (ascii second).length = 8) (hn : ascii first ≠ ascii second) {governed : Bool} :
    (readVersion (ascii first) (ascii second)).run bytes = .ok (governed,rest) ↔
      bytes = ascii (if governed then second else first) ++ rest := by
  simp only [readVersion,bind_run_ok,readExact_run_ok,give_run_ok]
  constructor
  · rintro ⟨tag,_,⟨_,rfl⟩,ht,rfl⟩
    split_ifs at ht with h1 h2
    · cases ht
      rw [h1]
      rfl
    · cases ht
      rw [h2]
      rfl
  · rintro rfl
    cases governed with
    | false => exact ⟨ascii first,rest,⟨hf,rfl⟩,if_pos rfl,rfl⟩
    | true => exact ⟨ascii second,rest,⟨hs,rfl⟩,(if_neg hn.symm).trans (if_pos rfl),rfl⟩

lemma optional_run_ok {α : Type} {d : Decoder α} {encode : α → Bytes} {P : α → Prop}
    (h : Exact d encode P)
    {read : Bool → Decoder (Option α)} (hn : read false = pure none)
    (hs : read true = d >>= fun a => pure (some a)) {governed : Bool} {o : Option α} :
    (read governed).run bytes = .ok (o,rest) ↔
      (o.isSome = governed ∧ ∀ a ∈ o, P a) ∧ bytes = (o.map encode).getD [] ++ rest := by
  cases governed with
  | false =>
    rw [hn,pure_run_ok]
    constructor
    · rintro ⟨rfl,rfl⟩
      exact ⟨⟨rfl,by simp⟩,rfl⟩
    · rintro ⟨⟨hab,-⟩,rfl⟩
      obtain rfl : o = none := by simpa using hab
      exact ⟨rfl,rfl⟩
  | true =>
    rw [hs,h.run_one]
    constructor
    · rintro ⟨a,ha,rfl,rfl⟩
      exact ⟨⟨rfl,by simpa using ha⟩,rfl⟩
    · rintro ⟨⟨ht,hal⟩,rfl⟩
      obtain ⟨a,rfl⟩ := Option.isSome_iff_exists.mp ht
      exact ⟨a,hal a rfl,rfl,rfl⟩

namespace PotbPolicy

def read : Decoder PotbPolicy := do
  let epochBlocks ← readU64
  let initialWeight ← readU128
  let ageIncrement ← readU128
  let maximumWeight ← readU128
  let policy : PotbPolicy := { epochBlocks, initialWeight, ageIncrement, maximumWeight }
  give (failAs .nonCanonical policy.validateForRoster)
  return policy

def Canonical (p : PotbPolicy) : Prop := p.validateForRoster = .ok () ∧ p.ageIncrement < 2 ^ 128

lemma weights_lt {p : PotbPolicy} {u : Unit} (h : p.validateForRoster = .ok u) :
    p.initialWeight < 2 ^ 128 ∧ p.maximumWeight < 2 ^ 128 := by
  simp only [validateForRoster,validate,bind_eq_ok,ensure_eq_ok] at h
  obtain ⟨_,⟨_,_,hl⟩,hm⟩ := h
  have hb : (2 ^ 128 - 1) / maxRotationValidators < 2 ^ 128 := by decide
  omega

lemma bytes_length (p : PotbPolicy) : p.bytes.length = 56 := by
  simp only [PotbPolicy.bytes,length_append,u64Bytes_length,leBytes_length]

lemma read_run_ok {p : PotbPolicy} :
    read.run bytes = .ok (p,rest) ↔ p.Canonical ∧ bytes = p.bytes ++ rest := by
  simp only [read,bind_run_ok,pure_run_ok,readU64_run_ok,
    readU128_run_ok,give_run_ok,failAs_eq_ok,Canonical,PotbPolicy.bytes,
    append_assoc]
  constructor
  · rintro ⟨epoch,_,rfl,initial,_,⟨_,rfl⟩,age,_,⟨ha,rfl⟩,most,_,⟨_,rfl⟩,_,_, ⟨hv,rfl⟩,rfl,rfl⟩
    exact ⟨⟨hv,ha⟩,rfl⟩
  · rintro ⟨⟨hv,ha⟩,rfl⟩
    obtain ⟨hi,hm⟩ := weights_lt hv
    exact ⟨p.epochBlocks,_,rfl,p.initialWeight,_,⟨hi,rfl⟩,p.ageIncrement,_,⟨ha,rfl⟩,
      p.maximumWeight,_,⟨hm,rfl⟩,(),_,⟨hv,rfl⟩,rfl,rfl⟩

end PotbPolicy

namespace PotbConfiguration

def maxBytes : Nat := 12 + maxGenesisBytes + 56 + GovernancePolicy.encodedLen

def readGovernance : Bool → Decoder (Option GovernancePolicy)
  | false => return none
  | true => do
    let bytes ← readExact GovernancePolicy.encodedLen
    let policy ← give (GovernancePolicy.fromBytes bytes)
    return some policy

def readParts : Decoder (Bytes × PotbPolicy × Option GovernancePolicy) := do
  let governed ← readVersion (ascii "ALPTCF01") (ascii "ALPTCF02")
  let genesis ← readFramed maxGenesisBytes
  let policy ← PotbPolicy.read
  let governance ← readGovernance governed
  return (genesis, policy, governance)

def governedBy (config : PotbConfiguration) :
    Option GovernancePolicy → Except ConsensusError PotbConfiguration
  | none => .ok config
  | some policy => config.withGovernance policy

def fromBytes (bytes : Bytes) : Except DecodeError PotbConfiguration := do
  ensure .limitExceeded (bytes.length ≤ maxBytes)
  let (genesis, policy, governance) ← whole readParts bytes
  let genesis ← Genesis.decode genesis
  let config ← failAs .nonCanonical (new genesis policy)
  failAs .nonCanonical (config.governedBy governance)

structure Canonical (config : PotbConfiguration) : Prop where
  base : new config.genesis config.policy = .ok { config with governance := none }
  age : config.policy.ageIncrement < 2 ^ 128
  governance : ∀ policy ∈ config.governance, policy.permits config.genesisParameters = .ok ()

variable {config : PotbConfiguration}

lemma readGovernance_run_ok {governed : Bool} {gov : Option GovernancePolicy} :
    (readGovernance governed).run bytes = .ok (gov,rest) ↔
      (gov.isSome = governed ∧ ∀ policy ∈ gov, policy.validate = .ok ()) ∧
        bytes = (gov.map GovernancePolicy.toBytes).getD [] ++ rest := by
  exact optional_run_ok (Exact.sliced (fun _ _ => GovernancePolicy.fromBytes_eq_ok)
    fun policy _ => policy.toBytes_length) rfl (by simp [readGovernance])

lemma new_eq_ok {genesis : Genesis} {policy : PotbPolicy} :
    new genesis policy = .ok config ↔ new genesis policy = .ok { genesis, policy, governance := none } ∧
      config = { genesis, policy, governance := none } := by
  constructor
  · intro h
    have hs : config = { genesis, policy, governance := none } := by
      simp only [new,bind_eq_ok,pure_ok_iff] at h
      obtain ⟨_,_,_,_,_,_,rfl⟩ := h
      rfl
    exact ⟨hs ▸ h,hs⟩
  · rintro ⟨h,rfl⟩
    exact h

lemma parts_of_new {gen : Genesis} {policy : PotbPolicy} (h : new gen policy = .ok config) :
    gen.validate = .ok () ∧ policy.validateForRoster = .ok () := by
  simp only [new,bind_eq_ok] at h
  obtain ⟨_,hg,_,hp,_⟩ := h
  exact ⟨failAs_eq_ok.mp hg,hp⟩

lemma governedBy_eq_ok {base : PotbConfiguration} {governance : Option GovernancePolicy}
    (hb : base.governance = none) : base.governedBy governance = .ok config ↔
      (∀ policy ∈ governance, policy.permits base.genesisParameters = .ok ()) ∧
        config = { base with governance } := by
  cases governance with
  | none =>
    simp only [governedBy,Except.ok.injEq]
    constructor
    · rintro rfl
      exact ⟨by simp,by rw [← hb]⟩
    · rintro ⟨-,rfl⟩
      rw [← hb]
  | some policy =>
    simp only [governedBy,withGovernance,bind_eq_ok,pure_ok_iff,Option.mem_some_iff]
    constructor
    · rintro ⟨_,hp,rfl⟩
      exact ⟨fun _ h => h ▸ hp,rfl⟩
    · rintro ⟨hp,rfl⟩
      exact ⟨(),hp policy rfl,rfl⟩

lemma governance_length (gov : Option GovernancePolicy) :
    ((gov.map GovernancePolicy.toBytes).getD []).length ≤ GovernancePolicy.encodedLen := by
  cases gov with
  | none => simp
  | some policy => exact Nat.le_of_eq policy.toBytes_length

lemma tag_length (governed : Bool) :
    (ascii (if governed then "ALPTCF02" else "ALPTCF01")).length = 8 := by
  cases governed <;> decide

lemma toBytes_length (h : config.Canonical) : config.toBytes.length ≤ maxBytes := by
  have hg := Genesis.toBytes_length (Genesis.bounded_of_validate (parts_of_new h.base).1)
  have hgo := governance_length config.governance
  simp only [toBytes,length_append,tag_length,leBytes_length,PotbPolicy.bytes_length,maxBytes]
  omega

lemma fromBytes_eq_ok : fromBytes bytes = .ok config ↔ config.Canonical ∧ bytes = config.toBytes := by
  simp (disch := decide) only [fromBytes,bind_eq_ok,ensure_eq_ok,failAs_eq_ok,whole_eq_ok,readParts,
    bind_run_ok,pure_run_ok,readVersion_run_ok,readFramed_run_ok,PotbPolicy.read_run_ok,
    readGovernance_run_ok,Prod.exists,Prod.mk.injEq,Genesis.decode_eq_ok]
  constructor
  · rintro ⟨_,_,_,_,_,⟨governed,_,rfl,_,_,⟨_,rfl⟩,policy,_,⟨hpo,rfl⟩,governance,_,
      ⟨⟨rfl,_⟩,rfl⟩,⟨rfl,rfl,rfl⟩,rfl⟩,genesis,⟨_,rfl⟩,base,hn,hgo⟩
    obtain ⟨hn,rfl⟩ := new_eq_ok.mp hn
    obtain ⟨hpe,rfl⟩ := (governedBy_eq_ok rfl).mp hgo
    refine ⟨⟨hn,hpo.2,hpe⟩,?_⟩
    simp only [toBytes,framed,append_assoc,append_nil]
  · rintro ⟨h,rfl⟩
    obtain ⟨hg,hpo⟩ := parts_of_new h.base
    have hl := Genesis.toBytes_length (Genesis.bounded_of_validate hg)
    have hv : ∀ policy ∈ config.governance, policy.validate = .ok () := fun policy hp =>
      GovernanceState.validate_of_permits (h.governance policy hp)
    refine ⟨(),toBytes_length h,config.genesis.toBytes,config.policy,config.governance,
      ⟨config.governance.isSome,_,rfl,config.genesis.toBytes,_,
        ⟨⟨hl,Nat.lt_of_le_of_lt hl (by decide)⟩,?_⟩,config.policy,_,
        ⟨⟨hpo,h.age⟩,rfl⟩,config.governance,[],⟨⟨rfl,hv⟩,(append_nil _).symm⟩,
        ⟨rfl,rfl,rfl⟩,rfl⟩,config.genesis,⟨hg,rfl⟩,{ config with governance := none },h.base,
      (governedBy_eq_ok rfl).mpr ⟨h.governance,rfl⟩⟩
    rw [framed,append_assoc]

end PotbConfiguration

lemma writeField_eq_ok {field : Bytes} :
    writeField field = .ok bytes ↔ field.length < 2 ^ 32 ∧ bytes = framed field := by
  simp only [writeField,bind_eq_ok,ensure_eq_ok,pure_ok_iff,exists_and_left,exists_const]
  exact and_congr_right fun _ => eq_comm

lemma writeField_of {field : Bytes} {lim : Nat} (h : field.length ≤ lim) (hl : lim < 2 ^ 32) :
    writeField field = .ok (framed field) :=
  writeField_eq_ok.mpr ⟨Nat.lt_of_le_of_lt h hl,rfl⟩

def listBytes {α : Type} (raw : α → Bytes) (l : List α) : Bytes :=
  [UInt8.ofNat l.length] ++ l.flatMap fun a => framed (raw a)

namespace PotbBatch

def maxBytes : Nat :=
  14 + VrfBatch.maxBytes + maxRotationValidators *
    (8 + HistoricalEvidence.maxBytes + AdmissionCertificate.maxBytes) + 4 +
      GovernanceCertificate.maxBytes

def readList (maximum : Nat) : Decoder (List Bytes) := do
  let count ← readU8
  check .limitExceeded (count.toNat ≤ maxRotationValidators)
  many (readFramed maximum) count.toNat

def readGovernance (c : Suite) : Bool → Decoder (Option GovernanceCertificate)
  | false => return none
  | true => do
    let bytes ← readFramed GovernanceCertificate.maxBytes
    let certificate ← give (GovernanceCertificate.fromBytes c.blake2s bytes)
    return some certificate

def readParts (c : Suite) : Decoder (Bytes × List Bytes × List Bytes × Option GovernanceCertificate) := do
  let governed ← readVersion (ascii "ALPTBT01") (ascii "ALPTBT02")
  let contributions ← readFramed VrfBatch.maxBytes
  let evidence ← readList HistoricalEvidence.maxBytes
  let admissions ← readList AdmissionCertificate.maxBytes
  let governance ← readGovernance c governed
  return (contributions, evidence, admissions, governance)

def fromBytes (c : Suite) (bytes : Bytes) : Except DecodeError PotbBatch := do
  ensure .limitExceeded (bytes.length ≤ maxBytes)
  let (contributions, evidence, admissions, governance) ← whole (readParts c) bytes
  let contributions ← VrfBatch.fromBytes c contributions
  let evidence ← evidence.mapM (HistoricalEvidence.fromBytes c)
  let admissions ← admissions.mapM (AdmissionCertificate.fromBytes c)
  PotbBatch.validateOrder c { contributions, evidence, admissions, governance }
  return { contributions, evidence, admissions, governance }

structure Canonical (c : Suite) (b : PotbBatch) : Prop where
  order : b.validateOrder c = .ok ()
  contributions : b.contributions.Canonical c
  evidence : ∀ e ∈ b.evidence, e.Canonical c
  admissions : ∀ a ∈ b.admissions, a.validateShape c = .ok ()
  governance : ∀ g ∈ b.governance, g.validateShape c.blake2s = .ok ()

def governanceBytes : Option GovernanceCertificate → Bytes
  | none => []
  | some certificate => framed certificate.raw

def raw (b : PotbBatch) : Bytes :=
  ascii (if b.governance.isSome then "ALPTBT02" else "ALPTBT01") ++ (framed b.contributions.raw ++
    (listBytes HistoricalEvidence.raw b.evidence ++ (listBytes AdmissionCertificate.raw b.admissions ++
      governanceBytes b.governance)))

lemma fields_of {α : Type} {encode : α → Except DecodeError Bytes} {raw : α → Bytes} {lim : Nat}
    (hli : lim < 2 ^ 32) {items : List α} (h : ∀ a ∈ items, encode a = .ok (raw a))
    (hle : ∀ a ∈ items, (raw a).length ≤ lim) :
    fields encode items = .ok (items.flatMap fun a => framed (raw a)) := by
  have hm : items.mapM (fun item => do writeField (← encode item)) =
      .ok (items.map fun a => framed (raw a)) := by
    induction items with
    | nil => rfl
    | cons a items ih =>
      obtain ⟨ha,h⟩ := forall_mem_cons.mp h
      obtain ⟨hl,hle⟩ := forall_mem_cons.mp hle
      rw [mapM_cons,ha,ok_bind,writeField_of hl hli,ok_bind,ih h hle]
      rfl
  rw [fields,hm,ok_bind,pure_eq_ok,flatMap_def]

variable {b : PotbBatch}

lemma lengths_of_order {u : Unit} (h : b.validateOrder c = .ok u) :
    b.evidence.length ≤ maxRotationValidators ∧ b.admissions.length ≤ maxRotationValidators := by
  obtain ⟨_,hs,-⟩ := bind_eq_ok.mp h
  exact ensure_eq_ok.mp hs

lemma toBytes_of (h : b.Canonical c) : b.toBytes c = .ok b.raw := by
  have hco : b.contributions.toBytes c = .ok b.contributions.raw :=
    (VrfBatch.writes _ _).mpr ⟨h.contributions,rfl⟩
  have hev : fields (·.toBytes c) b.evidence = .ok (b.evidence.flatMap fun e => framed e.raw) :=
    fields_of (by decide : HistoricalEvidence.maxBytes < 2 ^ 32)
      (fun e he => HistoricalEvidence.toBytes_eq_ok.mpr
        ⟨(h.evidence e he).context,(h.evidence e he).history.1,rfl⟩)
      fun e he => HistoricalEvidence.raw_length (h.evidence e he)
  have had : fields (·.toBytes c) b.admissions = .ok (b.admissions.flatMap fun a => framed a.raw) :=
    fields_of (by decide : AdmissionCertificate.maxBytes < 2 ^ 32)
      (fun a ha => (AdmissionCertificate.writes _ _).mpr ⟨h.admissions a ha,rfl⟩)
      fun a ha => AdmissionCertificate.raw_length (h.admissions a ha)
  have hgo : governanceField c b.governance = .ok (governanceBytes b.governance) := by
    have hc := h.governance
    cases hg : b.governance with
    | none => rfl
    | some cert =>
      have hs := hc cert hg
      have hw : cert.toBytes c.blake2s = .ok cert.raw :=
        (GovernanceCertificate.writes _ _).mpr ⟨hs,rfl⟩
      rw [governanceField,hw,ok_bind,
        writeField_of (GovernanceCertificate.raw_length hs) (by decide),governanceBytes]
  rw [toBytes,h.order,ok_bind,hco,ok_bind,
    writeField_of (VrfBatch.raw_length h.contributions) (by decide),ok_bind,hev,ok_bind,
    had,ok_bind,hgo,ok_bind,pure_eq_ok]
  simp only [raw,listBytes,append_assoc]

lemma readList_run_ok {maximum : Nat} {slices : List Bytes} :
    (readList maximum).run bytes = .ok (slices,rest) ↔ (slices.length ≤ maxRotationValidators ∧
        ∀ slice ∈ slices, slice.length ≤ maximum ∧ slice.length < 2 ^ 32) ∧
        bytes = listBytes id slices ++ rest := by
  have hf : Exact (readFramed maximum) framed
      fun slice => slice.length ≤ maximum ∧ slice.length < 2 ^ 32 := fun _ _ _ => readFramed_run_ok
  simp only [readList,bind_run_ok,readU8_run_ok,check_run_ok, hf.many _ _ _ _,listBytes,append_assoc]
  constructor
  · rintro ⟨count,_,rfl,_,_,⟨hm,rfl⟩,⟨hc,hs⟩,rfl⟩
    refine ⟨⟨hc ▸ hm,hs⟩,?_⟩
    rw [ofNat_of_length hc]
    rfl
  · rintro ⟨⟨hm,hs⟩,rfl⟩
    have hc := toNat_ofNat_length hm
    exact ⟨UInt8.ofNat slices.length,_,rfl,(),_,⟨hc.symm ▸ hm,rfl⟩,⟨hc.symm,hs⟩,rfl⟩

lemma listBytes_map {α : Type} (raw : α → Bytes) (l : List α) :
    listBytes id (l.map raw) = listBytes raw l := by
  simp only [listBytes,length_map,flatMap_map,id]

lemma readGovernance_run_ok {governed : Bool} {gov : Option GovernanceCertificate} :
    (readGovernance c governed).run bytes = .ok (gov,rest) ↔
      (gov.isSome = governed ∧ ∀ g ∈ gov, g.validateShape c.blake2s = .ok ()) ∧
        bytes = governanceBytes gov ++ rest := by
  have hf : Exact (readFramedAs GovernanceCertificate.maxBytes (GovernanceCertificate.fromBytes c.blake2s))
      (fun g => framed g.raw) fun g => g.validateShape c.blake2s = .ok () := fun bytes g rest =>
    ((Exact.framedAs (by decide) fun _ _ => GovernanceCertificate.fromBytes_eq_ok) bytes g rest).trans
      (and_congr_left fun _ => ⟨And.left,fun h => ⟨h,GovernanceCertificate.raw_length h⟩⟩)
  have hb : governanceBytes gov = (gov.map fun g => framed g.raw).getD [] := by
    cases gov <;> rfl
  rw [hb]
  exact optional_run_ok hf rfl (by simp [readGovernance,readFramedAs])

lemma listBytes_length {α : Type} {raw : α → Bytes} {l : List α} {lim : Nat}
    (hm : l.length ≤ maxRotationValidators) (h : ∀ a ∈ l, (raw a).length ≤ lim) :
    (listBytes raw l).length ≤ 1 + maxRotationValidators * (4 + lim) := by
  have hf : (l.flatMap fun a => framed (raw a)).length ≤ l.length * (4 + lim) := by
    refine Exact.length_flatMap_le fun a ha => ?_
    have hr := h a ha
    rw [framed_length]
    omega
  have hl := hf.trans (Nat.mul_le_mul_right (4 + lim) hm)
  rw [listBytes,length_append,length_singleton]
  omega

lemma raw_length (h : b.Canonical c) : b.raw.length ≤ maxBytes := by
  obtain ⟨hev,had⟩ := lengths_of_order h.order
  have ht : (ascii (if b.governance.isSome then "ALPTBT02" else "ALPTBT01")).length = 8 := by
    cases b.governance.isSome <;> decide
  have hc := VrfBatch.raw_length h.contributions
  have hl : (listBytes HistoricalEvidence.raw b.evidence).length ≤ _ :=
    listBytes_length hev fun e he => HistoricalEvidence.raw_length (h.evidence e he)
  have hl' : (listBytes AdmissionCertificate.raw b.admissions).length ≤ _ :=
    listBytes_length had fun a ha => AdmissionCertificate.raw_length (h.admissions a ha)
  have hgo : (governanceBytes b.governance).length ≤ 4 + GovernanceCertificate.maxBytes := by
    have hs := h.governance
    cases hg : b.governance with
    | none => simp [governanceBytes]
    | some cert =>
      have := GovernanceCertificate.raw_length (hs cert hg)
      rw [governanceBytes,framed_length]
      omega
  simp only [raw,length_append,ht,framed_length,maxBytes]
  simp only [Nat.mul_add] at hl hl' ⊢
  omega

lemma fromBytes_eq_ok : fromBytes c bytes = .ok b ↔ b.Canonical c ∧ bytes = b.raw := by
  have hev : Decodes (HistoricalEvidence.fromBytes c) HistoricalEvidence.raw
      (HistoricalEvidence.Canonical c) := fun _ _ => HistoricalEvidence.fromBytes_eq_ok
  have had : Decodes (AdmissionCertificate.fromBytes c) AdmissionCertificate.raw
      fun a => a.validateShape c = .ok () := fun _ _ => AdmissionCertificate.fromBytes_eq_ok
  simp (disch := decide) only [fromBytes,bind_eq_ok,ensure_eq_ok,pure_ok_iff,whole_eq_ok,
    readParts,bind_run_ok,pure_run_ok,readVersion_run_ok,readFramed_run_ok,
    readList_run_ok,readGovernance_run_ok,Prod.exists,Prod.mk.injEq,VrfBatch.fromBytes_eq_ok,
    hev.mapM,had.mapM]
  constructor
  · rintro ⟨_,_,_,_,_,_,⟨governed,_,rfl,_,_,⟨_,rfl⟩,_,_,⟨_,rfl⟩,_,_,⟨_,rfl⟩,gov,
      _,⟨⟨rfl,hg⟩,rfl⟩,⟨rfl,rfl,rfl,rfl⟩,rfl⟩,contributions,⟨hc,rfl⟩,
      evidence,⟨hev,rfl⟩,admissions,⟨had,rfl⟩,_,ho,rfl⟩
    refine ⟨⟨ho,hc,hev,had,hg⟩,?_⟩
    simp only [raw,listBytes_map,append_nil]
  · rintro ⟨h,rfl⟩
    obtain ⟨hco,hc'⟩ := lengths_of_order h.order
    have hl := VrfBatch.raw_length h.contributions
    have hs : ∀ slice ∈ b.evidence.map HistoricalEvidence.raw,
        slice.length ≤ HistoricalEvidence.maxBytes ∧ slice.length < 2 ^ 32 := by
      rintro _ hm
      obtain ⟨e,he,rfl⟩ := mem_map.mp hm
      have := HistoricalEvidence.raw_length (h.evidence e he)
      exact ⟨this,Nat.lt_of_le_of_lt this (by decide)⟩
    have hs' : ∀ slice ∈ b.admissions.map AdmissionCertificate.raw,
        slice.length ≤ AdmissionCertificate.maxBytes ∧ slice.length < 2 ^ 32 := by
      rintro _ hm
      obtain ⟨a,ha,rfl⟩ := mem_map.mp hm
      have := AdmissionCertificate.raw_length (h.admissions a ha)
      exact ⟨this,Nat.lt_of_le_of_lt this (by decide)⟩
    refine ⟨(),raw_length h,b.contributions.raw,b.evidence.map HistoricalEvidence.raw,
      b.admissions.map AdmissionCertificate.raw,b.governance,⟨b.governance.isSome,_,rfl,
        b.contributions.raw,_,⟨⟨hl,Nat.lt_of_le_of_lt hl (by decide)⟩,rfl⟩,_,
        listBytes AdmissionCertificate.raw b.admissions ++ governanceBytes b.governance,
        ⟨⟨by rwa [length_map],hs⟩,?_⟩,_,governanceBytes b.governance,
        ⟨⟨by rwa [length_map],hs'⟩,?_⟩,b.governance,[],
        ⟨⟨rfl,h.governance⟩,(append_nil _).symm⟩,⟨rfl,rfl,rfl,rfl⟩,rfl⟩,b.contributions,
      ⟨h.contributions,rfl⟩,b.evidence,⟨h.evidence,rfl⟩,b.admissions,⟨h.admissions,rfl⟩,(),h.order,
      rfl⟩
    · rw [listBytes_map]
    · rw [listBytes_map]

end PotbBatch

lemma GovernancePolicy.nextEpoch_ok {p : GovernancePolicy} {height next : UInt64}
    (h : p.nextEpoch height = .ok next) :
    ∃ epoch, next.toNat = (epoch + 1) * p.epochBlocks.toNat + 1 ∧ 0 < p.epochBlocks.toNat := by
  have hs := okOr_eq_ok.mp h
  split at hs
  · cases hs
  · next hz =>
    simp only [Option.bind_eq_bind,Option.bind_eq_some_iff,checkedAdd64_eq_some] at hs
    obtain ⟨epoch,⟨rfl,_⟩,hst⟩ := hs
    have hp : p.epochBlocks.toNat ≠ 0 := fun h0 => hz (.inr (UInt64.toNat_inj.mp h0))
    split at hst
    · simp only [Option.bind_some,Option.bind_eq_some_iff,checkedAdd64_eq_some] at hst
      obtain ⟨last,⟨rfl,hl⟩,hn⟩ := hst
      cases hn
      exact ⟨_,UInt64.toNat_ofNat_of_lt' hl,Nat.pos_of_ne_zero hp⟩
    · cases hst

lemma GovernanceState.canonical_of_validate {g : GovernanceState} {height : UInt64} {u : Unit}
    (h : g.validate height = .ok u) : g.Canonical := by
  obtain ⟨_,ha,h⟩ := bind_eq_ok.mp h
  obtain ⟨_,_,h⟩ := bind_eq_ok.mp h
  refine ⟨ha,?_⟩
  match hp : g.pending with
  | none => rfl
  | some (activateAt,params) =>
    rw [hp] at h
    obtain ⟨_,hpe,h⟩ := bind_eq_ok.mp h
    obtain ⟨_,_,h⟩ := bind_eq_ok.mp h
    obtain ⟨next,hn,h⟩ := bind_eq_ok.mp h
    obtain rfl := ensure_eq_ok.mp h
    obtain ⟨epoch,hat,hpo⟩ := GovernancePolicy.nextEpoch_ok hn
    have hb : 1 < activateAt.toNat ∧ (activateAt.toNat - 1) % g.policy.epochBlocks.toNat = 0 := by
      have : 0 < (epoch + 1) * g.policy.epochBlocks.toNat := Nat.mul_pos epoch.succ_pos hpo
      rw [hat,Nat.add_sub_cancel,Nat.mul_mod_left]
      omega
    rw [checkPending,ensure_of hb,ok_bind,hpe,failAs_ok]

namespace PotbState

def readOffence : Decoder (Option Hash256) := do
  let flag ← readU8
  if flag = 0 then return none
  else if flag = 1 then return some (← readFixed 32)
  else give (.error .nonCanonical)

def readRecord : Decoder PotbRecord := do
  let publicKey ← readFixed 32
  let admittedAt ← readU64
  let eligibleBlocks ← readU64
  let disqualification ← readOffence
  return { publicKey, admittedAt, eligibleBlocks, disqualification }

def readRecords (c : Suite) : Nat → Option ValidatorId → Decoder (List (ValidatorId × PotbRecord))
  | 0, _ => pure []
  | count+1, previous => do
    let record ← readRecord
    let id := c.identity record.publicKey
    check .nonCanonical (∀ last ∈ previous, last < id)
    let rest ← readRecords c count (some id)
    return (id, record) :: rest

def readGovernance : Bool → Decoder (Option GovernanceState)
  | false => return none
  | true => do
    let bytes ← readFramed GovernanceState.maxBytes
    let governance ← give (GovernanceState.fromBytes bytes)
    return some governance

/-- What `from_bytes` reads, with the two nested states still as bytes. -/
structure Parts where
  policy : PotbPolicy
  lastBatch : Hash256
  committee : Bytes
  history : Bytes
  records : List (ValidatorId × PotbRecord)
  governance : Option GovernanceState

def readParts (c : Suite) : Decoder Parts := do
  let governed ← readVersion (ascii "ALPTST01") (ascii "ALPTST02")
  let policy ← PotbPolicy.read
  let lastBatch ← readFixed 32
  let committee ← readFramed CommitteeState.maxBytes
  let history ← readFramed CommitteeHistory.maxBytes
  let count ← readU8
  check .limitExceeded (count ≠ 0 ∧ count.toNat ≤ maxRotationValidators)
  let records ← readRecords c count.toNat none
  let governance ← readGovernance governed
  return { policy, lastBatch, committee, history, records, governance }

def fromBytes (c : Suite) (bytes : Bytes) : Except DecodeError PotbState := do
  ensure .limitExceeded (bytes.length ≤ maxBytes)
  let parts ← whole (readParts c) bytes
  let committee ← CommitteeState.fromBytes c parts.committee
  let history ← CommitteeHistory.fromBytes parts.history
  let result : PotbState :=
    { committee, policy := parts.policy, history,
      records := parts.records.foldl (fun m e => m.insert e.1 e.2) .empty,
      lastBatch := parts.lastBatch, governance := parts.governance }
  failAs .nonCanonical (result.validate c)
  return result

structure Canonical (c : Suite) (s : PotbState) : Prop where
  valid : s.validate c = .ok ()
  committee : s.committee.validate c = .ok ()
  history : s.history.Canonical
  age : s.policy.ageIncrement < 2 ^ 128

def governanceBytes : Option GovernanceState → Bytes
  | none => []
  | some governance => framed governance.toBytes

def raw (s : PotbState) : Bytes :=
  ascii (if s.governance.isSome then "ALPTST02" else "ALPTST01") ++ (s.policy.bytes ++
    (s.lastBatch.1 ++ (framed s.committee.raw ++ (framed s.history.toBytes ++
      ([UInt8.ofNat s.records.entries.length] ++ (s.records.entries.flatMap (fun e => recordBytes e.2) ++
        governanceBytes s.governance))))))

variable {s : PotbState}

structure Bounded (c : Suite) (s : PotbState) : Prop where
  policy : s.policy.validateForRoster = .ok ()
  records : s.records.entries ≠ [] ∧ s.records.entries.length ≤ maxRotationValidators
  identities : ∀ e ∈ s.records.entries, c.identity e.2.publicKey = e.1
  governance : ∀ g ∈ s.governance, g.Canonical

lemma bounded_of_validate (h : s.validate c = .ok ()) : s.Bounded c := by
  simp only [validate,bind_eq_ok,ensure_eq_ok] at h
  obtain ⟨_,hp,_,hgo,_,⟨hn,hm,_⟩,_,hr,_⟩ := h
  refine ⟨hp,⟨hn,hm⟩,fun e he => ?_,fun g hg => ?_⟩
  · have hc := of_forM hr e he
    simp only [checkRecord,bind_eq_ok,ensure_eq_ok] at hc
    obtain ⟨_,_,hi,_⟩ := hc
    exact hi
  · rw [checkGovernance,hg] at hgo
    obtain ⟨_,hv,_⟩ := bind_eq_ok.mp hgo
    exact GovernanceState.canonical_of_validate hv

lemma toBytes_of (h : s.Canonical c) : s.toBytes c = .ok s.raw := by
  have hc : s.committee.toBytes c = .ok s.committee.raw :=
    (CommitteeState.writes _ _).mpr ⟨h.committee,rfl⟩
  have hl := CommitteeState.raw_length (CommitteeState.bounded_of_validate h.committee)
  have hg : governanceField s.governance = .ok (governanceBytes s.governance) := by
    cases s.governance with
    | none => rfl
    | some gov => exact writeField_of gov.toBytes_length (by decide)
  rw [toBytes,h.valid,failAs_ok,ok_bind,hc,ok_bind,writeField_of hl (by decide),
    ok_bind,writeField_of (CommitteeHistory.toBytes_le _ h.history.slots) (by decide),ok_bind,
    hg,ok_bind,pure_eq_ok]
  rfl

def offenceBytes : Option Hash256 → Bytes
  | none => [0]
  | some offence => [1] ++ offence.1

lemma readOffence_run_ok {offence : Option Hash256} :
    readOffence.run bytes = .ok (offence,rest) ↔ bytes = offenceBytes offence ++ rest := by
  constructor
  · intro h
    obtain ⟨flag,middle,hf,hr⟩ := bind_run_ok.mp h
    obtain rfl := readU8_run_ok.mp hf
    split_ifs at hr with h0 h1
    · obtain ⟨rfl,rfl⟩ := pure_run_ok.mp hr
      rw [h0,offenceBytes]
    · simp only [bind_run_ok,pure_run_ok,readFixed_run_ok] at hr
      obtain ⟨hash,_,rfl,rfl,rfl⟩ := hr
      simp only [h1,offenceBytes,append_assoc]
    · cases (give_run_ok.mp hr).1
  · rintro rfl
    cases offence with
    | none => exact bind_run_ok.mpr ⟨0,rest,rfl,rfl⟩
    | some hash =>
      refine bind_run_ok.mpr ⟨1,hash.1 ++ rest,rfl,?_⟩
      simp only [if_neg (by decide : ¬(1 : UInt8) = 0),if_pos,bind_run_ok,pure_run_ok, readFixed_run_ok]
      exact ⟨hash,_,rfl,rfl,rfl⟩

lemma recordBytes_eq (r : PotbRecord) : recordBytes r = r.publicKey.1 ++ (u64Bytes r.admittedAt ++
    (u64Bytes r.eligibleBlocks ++ offenceBytes r.disqualification)) := by
  rw [recordBytes]
  cases r.disqualification <;> rfl

lemma readRecord_run_ok {r : PotbRecord} :
    readRecord.run bytes = .ok (r,rest) ↔ bytes = recordBytes r ++ rest := by
  simp only [readRecord,bind_run_ok,pure_run_ok,readFixed_run_ok,
    readU64_run_ok,readOffence_run_ok,recordBytes_eq,append_assoc]
  constructor
  · rintro ⟨key,_,rfl,admitted,_,rfl,eligible,_,rfl,offence,_,rfl,rfl,rfl⟩
    rfl
  · rintro rfl
    exact ⟨r.publicKey,_,rfl,r.admittedAt,_,rfl,r.eligibleBlocks,_,rfl,r.disqualification,_,rfl,
      rfl,rfl⟩

structure Listed (c : Suite) (above : Option ValidatorId) (entries : List (ValidatorId × PotbRecord)) :
    Prop where
  identities : ∀ e ∈ entries, c.identity e.2.publicKey = e.1
  bound : ∀ last ∈ above, ∀ e ∈ entries, last < e.1
  sorted : entries.Pairwise fun a b => a.1 < b.1

variable {above : Option ValidatorId} {es : List (ValidatorId × PotbRecord)}

lemma listed_cons {e : ValidatorId × PotbRecord} : Listed c above (e :: es) ↔
      c.identity e.2.publicKey = e.1 ∧ (∀ last ∈ above, last < e.1) ∧ Listed c (some e.1) es := by
  constructor
  · rintro ⟨hid,hb,hs⟩
    obtain ⟨hi,hid⟩ := forall_mem_cons.mp hid
    obtain ⟨hf,hs⟩ := pairwise_cons.mp hs
    refine ⟨hi,fun last hl => hb last hl e mem_cons_self,hid,?_,hs⟩
    rintro _ ⟨⟩ other ho
    exact hf other ho
  · rintro ⟨hi,hlo,hid,hb,hs⟩
    refine ⟨forall_mem_cons.mpr ⟨hi,hid⟩,fun last hl => ?_,pairwise_cons.mpr ⟨hb e.1 rfl,hs⟩⟩
    exact forall_mem_cons.mpr ⟨hlo last hl,fun other ho =>
      (hlo last hl).trans (hb e.1 rfl other ho)⟩

lemma readRecords_run_ok {count : Nat} :
    (readRecords c count above).run bytes = .ok (es,rest) ↔ (es.length = count ∧ Listed c above es) ∧
        bytes = es.flatMap (fun e => recordBytes e.2) ++ rest := by
  induction count generalizing above es bytes rest with
  | zero =>
    simp only [readRecords,pure_run_ok,length_eq_zero_iff]
    constructor
    · rintro ⟨rfl,rfl⟩
      exact ⟨⟨rfl,⟨by simp,by simp,.nil⟩⟩,rfl⟩
    · rintro ⟨⟨rfl,-⟩,rfl⟩
      exact ⟨rfl,rfl⟩
  | succ count ih =>
    simp only [readRecords,bind_run_ok,pure_run_ok,readRecord_run_ok,check_run_ok,ih]
    constructor
    · rintro ⟨rec,_,rfl,_,_,⟨hlo,rfl⟩,es,_,⟨⟨hl,hli⟩,rfl⟩,rfl,rfl⟩
      refine ⟨⟨congrArg (· + 1) hl,listed_cons.mpr ⟨rfl,hlo,hli⟩⟩,?_⟩
      rw [flatMap_cons,append_assoc]
    · rintro ⟨⟨hl,hli⟩,rfl⟩
      cases es with
      | nil => cases hl
      | cons e es =>
        obtain ⟨id,rec⟩ := e
        obtain ⟨hi,hlo,hli⟩ := listed_cons.mp hli
        obtain rfl : c.identity rec.publicKey = id := hi
        refine ⟨rec,_,?_,(),_,⟨hlo,rfl⟩,es,rest,⟨⟨Nat.succ.inj hl,hli⟩,rfl⟩,rfl, rfl⟩
        rw [flatMap_cons,append_assoc]

lemma readGovernance_run_ok {governed : Bool} {gov : Option GovernanceState} :
    (readGovernance governed).run bytes = .ok (gov,rest) ↔
      (gov.isSome = governed ∧ ∀ g ∈ gov, g.Canonical) ∧ bytes = governanceBytes gov ++ rest := by
  have hf : Exact (readFramedAs GovernanceState.maxBytes GovernanceState.fromBytes)
      (fun g => framed g.toBytes) GovernanceState.Canonical := fun bytes g rest =>
    ((Exact.framedAs (by decide) fun _ _ => GovernanceState.fromBytes_eq_ok) bytes g rest).trans
      (and_congr_left fun _ => ⟨And.left,fun h => ⟨h,g.toBytes_length⟩⟩)
  have hb : governanceBytes gov = (gov.map fun g => framed g.toBytes).getD [] := by
    cases gov <;> rfl
  rw [hb]
  exact optional_run_ok hf rfl (by simp [readGovernance,readFramedAs])

lemma recordBytes_length (r : PotbRecord) : (recordBytes r).length ≤ 81 := by
  rw [recordBytes_eq]
  cases r.disqualification with
  | none => simp [offenceBytes,r.publicKey.2]
  | some offence => simp [offenceBytes,r.publicKey.2,offence.2]

lemma records_length (es : List (ValidatorId × PotbRecord)) :
    (es.flatMap fun e => recordBytes e.2).length ≤ es.length * 81 :=
  Exact.length_flatMap_le fun e _ => recordBytes_length e.2

lemma governance_length (gov : Option GovernanceState) :
    (governanceBytes gov).length ≤ 4 + GovernanceState.maxBytes := by
  cases gov with
  | none => exact Nat.zero_le _
  | some gov =>
    rw [governanceBytes,framed_length]
    exact Nat.add_le_add_left gov.toBytes_length 4

lemma raw_length (h : s.Canonical c) : s.raw.length ≤ maxBytes := by
  have hb := bounded_of_validate h.valid
  have ht : (ascii (if s.governance.isSome then "ALPTST02" else "ALPTST01")).length = 8 := by
    cases s.governance.isSome <;> decide
  have hc := CommitteeState.raw_length (CommitteeState.bounded_of_validate h.committee)
  have hh := CommitteeHistory.toBytes_le s.history h.history.slots
  have hr := records_length s.records.entries
  have hco := hb.records.2
  have hg := governance_length s.governance
  have hl : s.raw.length = 8 + (56 + (32 + ((4 + s.committee.raw.length) +
      ((4 + s.history.toBytes.length) + (1 + ((s.records.entries.flatMap fun e => recordBytes e.2).length +
        (governanceBytes s.governance).length)))))) := by
    simp only [raw,length_append,ht,PotbPolicy.bytes_length,s.lastBatch.2,framed_length,
      length_singleton]
  unfold maxBytes legacyMaxBytes
  simp only [CommitteeState.maxBytes] at hc
  simp only [CommitteeHistory.maxBytes] at hh
  simp only [GovernanceState.maxBytes] at hg
  omega

lemma fromBytes_eq_ok : fromBytes c bytes = .ok s ↔ s.Canonical c ∧ bytes = s.raw := by
  simp (disch := decide) only [fromBytes,bind_eq_ok,ensure_eq_ok,failAs_eq_ok,pure_ok_iff,
    whole_eq_ok,readParts,bind_run_ok,pure_run_ok,readVersion_run_ok,
    PotbPolicy.read_run_ok,readFixed_run_ok,readFramed_run_ok,
    readU8_run_ok,check_run_ok,readRecords_run_ok,readGovernance_run_ok,
    CommitteeState.fromBytes_eq_ok,CommitteeHistory.fromBytes_eq_ok]
  constructor
  · rintro ⟨_,_,_,⟨governed,_,rfl,policy,_,⟨hp,rfl⟩,lastBatch,_,rfl,_,_,⟨_,rfl⟩,_,_,
      ⟨_,rfl⟩,count,_,rfl,_,_,⟨_,rfl⟩,records,_,⟨⟨hco,hl⟩,rfl⟩,governance,_,
      ⟨⟨rfl,_⟩,rfl⟩,rfl,rfl⟩,committee,⟨hc,rfl⟩,history,⟨hh,rfl⟩,_,hv,rfl⟩
    refine ⟨⟨hv,hc,hh,hp.2⟩,?_⟩
    have he : (records.foldl (fun m e => m.insert e.1 e.2)
        (OrderedMap.empty : OrderedMap ValidatorId PotbRecord)).entries = records :=
      OrderedMap.foldl_insert hl.sorted
    simp only [raw,he,ofNat_of_length hco,append_nil]
  · rintro ⟨h,rfl⟩
    have hb := bounded_of_validate h.valid
    obtain ⟨hn,hm⟩ := hb.records
    have hco := toNat_ofNat_length hm
    have hc := CommitteeState.raw_length (CommitteeState.bounded_of_validate h.committee)
    have hh := CommitteeHistory.toBytes_le s.history h.history.slots
    refine ⟨(),raw_length h,⟨s.policy,s.lastBatch,s.committee.raw,s.history.toBytes,s.records.entries,
        s.governance⟩,⟨s.governance.isSome,_,rfl,s.policy,_,⟨⟨hb.policy,h.age⟩,rfl⟩,
        s.lastBatch,_,rfl,s.committee.raw,_,
        ⟨⟨hc,Nat.lt_of_le_of_lt hc (by decide)⟩,rfl⟩,s.history.toBytes,_,
        ⟨⟨hh,Nat.lt_of_le_of_lt hh (by decide)⟩,rfl⟩,UInt8.ofNat s.records.entries.length,_,
        rfl,(),_,⟨⟨count_ne_zero hn hm,hco.symm ▸ hm⟩,rfl⟩,s.records.entries,_,
        ⟨⟨hco.symm,⟨hb.identities,by simp,s.records.sorted⟩⟩,rfl⟩,s.governance,[],
        ⟨⟨rfl,hb.governance⟩,(append_nil _).symm⟩,rfl,rfl⟩,s.committee,
      ⟨h.committee,rfl⟩,s.history,⟨h.history,rfl⟩,(),?_,?_⟩
    · rw [OrderedMap.collect_entries]
      exact h.valid
    · rw [OrderedMap.collect_entries]

end PotbState

end Astrolune.Consensus
