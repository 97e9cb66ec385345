import Astrolune.Consensus.PotbWire
import Astrolune.State.Formats

namespace Astrolune.Consensus
open Lib Codec Crypto State Decoder Reader List

variable {c : Suite} {bytes : Bytes}

def committeeStateKey : StateKey := ascii "astrolune/consensus/committee/v1"

structure CommitteeHandoff where
  header : BlockHeader
  certificate : FinalityCertificate
  contributions : VrfBatch
  nextState : StateValueProof

/-- The witness of a handoff: a value at the given key, within the given bound. -/
def checkNextState (key : StateKey) (maximum : Nat) : StateValueProof → Except DecodeError Unit
  | .present witness =>
    ensure .nonCanonical (witness.key = key ∧ witness.value.length ≤ maximum ∧
      witness.proof.siblings.length ≤ 20)
  | .absent _ => .error .nonCanonical

def CommitteeHandoff.validateShape (h : CommitteeHandoff) : Except DecodeError Unit := do
  ensure .limitExceeded (h.certificate.signatures.length ≤ maxRotationValidators)
  checkNextState committeeStateKey CommitteeState.maxBytes h.nextState
  h.certificate.validateShape
  h.contributions.validateShape

structure HandoffVerifier where
  current : CommitteeState
  parent : Hash256
  history : CommitteeHistory
  deriving DecidableEq

namespace HandoffVerifier

variable (c : Suite)

def new (genesis : Genesis) (keys : List (Fixed 32)) : Except ConsensusError HandoffVerifier := do
  let current ← CommitteeState.fromGenesis c genesis keys
  let history ← CommitteeHistory.new current.chainId current.genesis
  return { current, parent := current.genesis, history }

def verifyHeader (v : HandoffVerifier) (header : BlockHeader) (certificate : FinalityCertificate) :
    Except ConsensusError Unit := do
  ensure .invalidTransition (header.height = v.current.height ∧ header.parent = v.parent ∧
    header.capacity = v.current.capacity)
  let context ← v.current.context c
  context.verifyCertificate c.blake2s c.toVerifier certificate header

/-- The checks of `apply`, up to the state that it publishes. -/
def check (v : HandoffVerifier) (handoff : CommitteeHandoff) :
    Except ConsensusError HandoffVerifier := do
  failAs .invalidProof handoff.validateShape
  v.verifyHeader c handoff.header handoff.certificate
  let next ← v.current.transition c handoff.contributions
  let expected ← failAs .invalidProof (next.toBytes c)
  let value ← failAs .invalidProof
    (handoff.nextState.verify c.blake2s handoff.header.stateRoot committeeStateKey)
  ensure .invalidTransition (value = some expected)
  let context ← v.current.context c
  let history ← v.history.tryAppend c.blake2s context
  return { current := next, parent := handoff.header.computeHash c.blake2s, history }

def apply (v : HandoffVerifier) (handoff : CommitteeHandoff) :
    Except ConsensusError Unit × HandoffVerifier :=
  match v.check c handoff with
  | .error e => (.error e, v)
  | .ok next => (.ok (), next)

end HandoffVerifier

def maxCertificateBytes : Nat := 92 + 96 * maxRotationValidators

namespace FinalityCertificate

def raw (f : FinalityCertificate) : Bytes :=
  ascii "ALFC" ++ (u32Bytes 1 ++ (u32Bytes f.chainId ++ (u64Bytes f.height ++
    (u32Bytes f.round ++ (f.committeeRoot.1 ++ (f.block.1 ++ (leBytes 4 f.signatures.length ++
      f.signatures.flatMap entryBytes)))))))

variable {f : FinalityCertificate}

lemma encode_of (h : f.validateShape = .ok ()) : f.encode = .ok f.raw := by
  have hf : f.signatures.length < 2 ^ 32 := Nat.lt_of_le_of_lt (shape_of_validate h).2 (by decide)
  rw [encode,h,ok_bind,ensure_of hf]
  rfl

lemma raw_length (f : FinalityCertificate) : f.raw.length = 92 + f.signatures.length * 96 := by
  have hm : (ascii "ALFC").length = 4 := by decide
  simp only [raw,length_append,u32Bytes_length,u64Bytes_length,hm,f.committeeRoot.2,
    f.block.2,leBytes_length,entries_length]
  omega

lemma decodes : Decodes decode raw fun f => f.validateShape = .ok () := by
  intro bytes f
  rw [decode_eq_ok]
  constructor
  · intro h
    obtain ⟨_,hs,-⟩ := bind_eq_ok.mp h
    rw [encode_of hs,Except.ok.injEq] at h
    exact ⟨hs,h.symm⟩
  · rintro ⟨hs,rfl⟩
    exact encode_of hs

end FinalityCertificate

def readHandoff (magic : Bytes) (body witness : Nat) : Decoder (Bytes × Bytes × Bytes × Bytes) := do
  expect .unsupported magic
  let header ← readExact 200
  let certificate ← readFramed maxCertificateBytes
  let body ← readFramed body
  let witness ← readFramed witness
  return (header, certificate, body, witness)

def handoffBytes (magic : Bytes) (header : BlockHeader) (certificate body witness : Bytes) : Bytes :=
  magic ++ (header.canonicalBytes ++ (framed certificate ++ (framed body ++ framed witness)))

lemma readHandoff_run_ok {magic hdr cert body witness : Bytes} {maxBody maxWitness : Nat} :
    (readHandoff magic maxBody maxWitness).run bytes = .ok ((hdr,cert,body,witness),[]) ↔
      (hdr.length = 200 ∧ (cert.length ≤ maxCertificateBytes ∧ cert.length < 2 ^ 32) ∧
        (body.length ≤ maxBody ∧ body.length < 2 ^ 32) ∧
        witness.length ≤ maxWitness ∧ witness.length < 2 ^ 32) ∧
        bytes = magic ++ (hdr ++ (framed cert ++ (framed body ++ framed witness))) := by
  simp only [readHandoff,bind_run_ok,pure_run_ok,expect_run_ok,
    readExact_run_ok,readFramed_run_ok,Prod.mk.injEq]
  constructor
  · rintro ⟨_,_,rfl,_,_,⟨hh,rfl⟩,_,_,⟨hc,rfl⟩,_,_,⟨hb,rfl⟩,_,_, ⟨hw,rfl⟩,⟨rfl,rfl,rfl,rfl⟩,rfl⟩
    refine ⟨⟨hh,hc,hb,hw⟩,?_⟩
    rw [append_nil]
  · rintro ⟨⟨hh,hc,hb,hw⟩,rfl⟩
    exact ⟨(),_,rfl,hdr,_,⟨hh,rfl⟩,cert,_,⟨hc,rfl⟩,body,_,
      ⟨hb,rfl⟩,witness,[],⟨hw,(append_nil _).symm⟩,⟨rfl,rfl,rfl,rfl⟩,rfl⟩

lemma fits_of {n lim : Nat} (hl : n ≤ lim) (hlt : lim < 2 ^ 32) : n ≤ lim ∧ n < 2 ^ 32 :=
  ⟨hl,Nat.lt_of_le_of_lt hl hlt⟩

lemma handoffBytes_length (magic : Bytes) (hdr : BlockHeader) (cert body witness : Bytes) :
    (handoffBytes magic hdr cert body witness).length =
      magic.length + 212 + cert.length + body.length + witness.length := by
  simp only [handoffBytes,length_append,BlockHeader.canonicalBytes_length,framed_length]
  omega

lemma witness_of_check {key : StateKey} {maximum : Nat} {p : StateValueProof} {u : Unit}
    (h : checkNextState key maximum p = .ok u) :
    p.raw.length ≤ 686 + key.length + maximum := by
  cases p with
  | absent pf => cases h
  | present w =>
    obtain ⟨hk,hv,hs⟩ := ensure_eq_ok.mp h
    have hm : StateAbsenceProof.absenceMagic.length = 8 := by decide
    have hh := length_hashes w.proof.siblings
    have hl : (StateValueProof.present w).raw.length =
        46 + w.key.length + w.value.length + w.proof.siblings.length * 32 := by
      simp only [StateValueProof.raw,StateValueProof.framed,StateAbsenceProof.raw,
        StateWitness.optionBytes,StateWitness.bytes,length_cons,length_append,
        length_nil,hm,u16Bytes_length,u64Bytes_length,blob_length,
        hh]
      omega
    rw [hl,hk]
    omega

namespace CommitteeHandoff

def maxWitnessBytes : Nat := 4096

def maxBytes : Nat := 8 + 200 + 12 + maxCertificateBytes + VrfBatch.maxBytes + maxWitnessBytes

def toBytes (c : Suite) (h : CommitteeHandoff) : Except DecodeError Bytes := do
  h.validateShape
  let certificate ← h.certificate.encode
  let contributions ← h.contributions.toBytes c
  let witness ← failAs .nonCanonical h.nextState.toBytes
  ensure .limitExceeded (witness.length ≤ maxWitnessBytes)
  let certificate ← writeField certificate
  let contributions ← writeField contributions
  let witness ← writeField witness
  return ascii "ALHAND01" ++ (h.header.canonicalBytes ++ (certificate ++ (contributions ++ witness)))

def fromBytes (c : Suite) (bytes : Bytes) : Except DecodeError CommitteeHandoff := do
  ensure .limitExceeded (bytes.length ≤ maxBytes)
  let (header, certificate, contributions, witness) ←
    whole (readHandoff (ascii "ALHAND01") VrfBatch.maxBytes maxWitnessBytes) bytes
  let header ← BlockHeader.decode header
  let certificate ← FinalityCertificate.decode certificate
  let contributions ← VrfBatch.fromBytes c contributions
  let nextState ← failAs .nonCanonical (StateValueProof.fromBytes witness)
  CommitteeHandoff.validateShape { header, certificate, contributions, nextState }
  return { header, certificate, contributions, nextState }

def raw (h : CommitteeHandoff) : Bytes :=
  handoffBytes (ascii "ALHAND01") h.header h.certificate.raw h.contributions.raw h.nextState.raw

structure Canonical (c : Suite) (h : CommitteeHandoff) : Prop where
  shape : h.validateShape = .ok ()
  contributions : h.contributions.Canonical c
  witness : h.nextState.framed.Encodable

variable {h : CommitteeHandoff}

lemma parts_of_shape {u : Unit} (hs : h.validateShape = .ok u) :
    h.certificate.validateShape = .ok () ∧ h.certificate.raw.length ≤ maxCertificateBytes ∧
      h.nextState.raw.length ≤ maxWitnessBytes := by
  simp only [validateShape,bind_eq_ok,ensure_eq_ok] at hs
  obtain ⟨_,hco,_,hw,_,hc,_⟩ := hs
  refine ⟨hc,?_,(witness_of_check hw).trans ?_⟩
  · rw [FinalityCertificate.raw_length,maxCertificateBytes]
    omega
  · decide

lemma toBytes_of (hc : h.Canonical c) : h.toBytes c = .ok h.raw := by
  obtain ⟨hce,hl,hw⟩ := parts_of_shape hc.shape
  have hco : h.contributions.toBytes c = .ok h.contributions.raw :=
    (VrfBatch.writes _ _).mpr ⟨hc.contributions,rfl⟩
  have hp : h.nextState.toBytes = .ok h.nextState.raw :=
    (StateValueProof.writes _ _).mpr ⟨hc.witness,rfl⟩
  rw [toBytes,hc.shape,ok_bind,FinalityCertificate.encode_of hce,ok_bind,hco,
    ok_bind,hp,failAs_ok,ok_bind,ensure_of hw,ok_bind,writeField_of hl (by decide),
    ok_bind,writeField_of (VrfBatch.raw_length hc.contributions) (by decide),ok_bind,
    writeField_of hw (by decide),ok_bind,pure_eq_ok]
  rfl

lemma raw_length (hc : h.Canonical c) : h.raw.length ≤ maxBytes := by
  obtain ⟨_,hl,hw⟩ := parts_of_shape hc.shape
  have hm : (ascii "ALHAND01").length = 8 := by decide
  have hco := VrfBatch.raw_length hc.contributions
  rw [raw,handoffBytes_length,hm]
  unfold maxBytes
  omega

lemma decodes : Decodes (fromBytes c) raw (Canonical c) := by
  intro bytes h
  simp only [fromBytes,bind_eq_ok,ensure_eq_ok,pure_ok_iff,whole_eq_ok,
    Prod.exists,readHandoff_run_ok,BlockHeader.decode_eq_ok,FinalityCertificate.decodes _ _,
    VrfBatch.fromBytes_eq_ok,failAs_eq_ok,StateValueProof.decodes _ _]
  constructor
  · rintro ⟨_,_,_,_,_,_,⟨_,rfl⟩,hdr,rfl,cert,⟨_,rfl⟩,contributions,
      ⟨hco,rfl⟩,nextState,⟨hw,rfl⟩,_,hs,rfl⟩
    exact ⟨⟨hs,hco,hw⟩,rfl⟩
  · rintro ⟨hc,rfl⟩
    obtain ⟨hce,hl,hw⟩ := parts_of_shape hc.shape
    have hco := VrfBatch.raw_length hc.contributions
    exact ⟨(),raw_length hc,h.header.canonicalBytes,h.certificate.raw,h.contributions.raw,
      h.nextState.raw,⟨⟨h.header.canonicalBytes_length,fits_of hl (by decide),
        fits_of hco (by decide),fits_of hw (by decide)⟩,rfl⟩,h.header,rfl,h.certificate,
      ⟨hce,rfl⟩,h.contributions,⟨hc.contributions,rfl⟩,h.nextState,⟨hc.witness,rfl⟩,(),
      hc.shape,rfl⟩

end CommitteeHandoff

namespace PotbHandoff

def maxWitnessBytes : Nat := PotbState.maxBytes + 1024

def maxBytes : Nat := 220 + maxCertificateBytes + PotbBatch.maxBytes + maxWitnessBytes

def toBytes (c : Suite) (h : PotbHandoff) : Except DecodeError Bytes := do
  h.validateShape
  let witness ← failAs .nonCanonical h.nextState.toBytes
  ensure .limitExceeded (witness.length ≤ maxWitnessBytes)
  let certificate ← writeField (← h.certificate.encode)
  let batch ← writeField (← h.batch.toBytes c)
  let witness ← writeField witness
  return ascii "ALPTHF01" ++ (h.header.canonicalBytes ++ (certificate ++ (batch ++ witness)))

def fromBytes (c : Suite) (bytes : Bytes) : Except DecodeError PotbHandoff := do
  ensure .limitExceeded (bytes.length ≤ maxBytes)
  let (header, certificate, batch, witness) ←
    whole (readHandoff (ascii "ALPTHF01") PotbBatch.maxBytes maxWitnessBytes) bytes
  let header ← BlockHeader.decode header
  let certificate ← FinalityCertificate.decode certificate
  let batch ← PotbBatch.fromBytes c batch
  let nextState ← failAs .nonCanonical (StateValueProof.fromBytes witness)
  PotbHandoff.validateShape { header, certificate, batch, nextState }
  return { header, certificate, batch, nextState }

def raw (h : PotbHandoff) : Bytes :=
  handoffBytes (ascii "ALPTHF01") h.header h.certificate.raw h.batch.raw h.nextState.raw

structure Canonical (c : Suite) (h : PotbHandoff) : Prop where
  shape : h.validateShape = .ok ()
  batch : h.batch.Canonical c
  witness : h.nextState.framed.Encodable

variable {h : PotbHandoff}

lemma parts_of_shape {u : Unit} (hs : h.validateShape = .ok u) :
    h.certificate.validateShape = .ok () ∧ h.certificate.raw.length ≤ maxCertificateBytes ∧
      h.nextState.raw.length ≤ maxWitnessBytes := by
  obtain ⟨_,hco,hs⟩ := bind_eq_ok.mp hs
  obtain ⟨_,hc,hw⟩ := bind_eq_ok.mp hs
  have hco := ensure_eq_ok.mp hco
  have hch : checkNextState potbStateKey PotbState.maxBytes h.nextState = .ok () := by
    cases hp : h.nextState with
    | absent pf =>
      rw [hp] at hw
      cases hw
    | present w =>
      rw [hp] at hw
      exact hw
  have hk : potbStateKey.length = 23 := by decide
  refine ⟨hc,?_,(witness_of_check hch).trans ?_⟩
  · rw [FinalityCertificate.raw_length,maxCertificateBytes]
    omega
  · unfold maxWitnessBytes
    omega

lemma batch_lt : PotbBatch.maxBytes < 2 ^ 32 := by decide

lemma witness_lt : maxWitnessBytes < 2 ^ 32 := by decide

lemma toBytes_of (hc : h.Canonical c) : h.toBytes c = .ok h.raw := by
  obtain ⟨hce,hl,hw⟩ := parts_of_shape hc.shape
  have hp : h.nextState.toBytes = .ok h.nextState.raw :=
    (StateValueProof.writes _ _).mpr ⟨hc.witness,rfl⟩
  rw [toBytes,hc.shape,ok_bind,hp,failAs_ok,ok_bind,ensure_of hw,ok_bind,
    FinalityCertificate.encode_of hce,ok_bind,writeField_of hl (by decide),ok_bind,
    PotbBatch.toBytes_of hc.batch,ok_bind,writeField_of (PotbBatch.raw_length hc.batch) batch_lt,
    ok_bind,writeField_of hw witness_lt,ok_bind,pure_eq_ok]
  rfl

lemma raw_length (hc : h.Canonical c) : h.raw.length ≤ maxBytes := by
  obtain ⟨_,hl,hw⟩ := parts_of_shape hc.shape
  have hm : (ascii "ALPTHF01").length = 8 := by decide
  have hb := PotbBatch.raw_length hc.batch
  rw [raw,handoffBytes_length,hm]
  unfold maxBytes
  omega

lemma decodes : Decodes (fromBytes c) raw (Canonical c) := by
  intro bytes h
  simp only [fromBytes,bind_eq_ok,ensure_eq_ok,pure_ok_iff,whole_eq_ok,
    Prod.exists,readHandoff_run_ok,BlockHeader.decode_eq_ok,FinalityCertificate.decodes _ _,
    PotbBatch.fromBytes_eq_ok,failAs_eq_ok,StateValueProof.decodes _ _]
  constructor
  · rintro ⟨_,_,_,_,_,_,⟨_,rfl⟩,hdr,rfl,cert,⟨_,rfl⟩,batch,⟨hb,rfl⟩, nextState,⟨hw,rfl⟩,_,hs,rfl⟩
    exact ⟨⟨hs,hb,hw⟩,rfl⟩
  · rintro ⟨hc,rfl⟩
    obtain ⟨hce,hl,hw⟩ := parts_of_shape hc.shape
    have hb := PotbBatch.raw_length hc.batch
    exact ⟨(),raw_length hc,h.header.canonicalBytes,h.certificate.raw,h.batch.raw,h.nextState.raw,
      ⟨⟨h.header.canonicalBytes_length,fits_of hl (by decide),fits_of hb batch_lt,
        fits_of hw witness_lt⟩,rfl⟩,h.header,rfl,h.certificate,⟨hce,rfl⟩,h.batch,
      ⟨hc.batch,rfl⟩,h.nextState,⟨hc.witness,rfl⟩,(),hc.shape,rfl⟩

end PotbHandoff

end Astrolune.Consensus
