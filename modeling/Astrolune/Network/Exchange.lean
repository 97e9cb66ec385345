import Astrolune.Consensus.Handoff
import Astrolune.Consensus.Permanence

namespace Astrolune.Network
open Lib Codec Crypto Consensus Decoder Reader List

def maxExchangeBytes : Nat := 8 * 1024 * 1024

def maxBlockBytes : Nat := 1024 * 1024

def maxBlockTransactions : Nat := 256

def maxTransactionBytes : Nat := 64 * 1024

def maxMessages : Nat := 512

inductive NetworkMessage where
  | proposal (envelope : Proposal) (block : Block) (proof : Bytes)
  | vote (v : Vote)
  | finalized (block : Block) (certificate : FinalityCertificate)
  | validValue (block : Block) (proof : Bytes)
  | vrfContribution (height : UInt64) (contribution : VrfContribution)
  | transaction (tx : Transaction)
  | potbAdmission (certificate : AdmissionCertificate)
  | potbEvidence (evidence : HistoricalEvidence)
  | governance (certificate : GovernanceCertificate)

def putBlob (bytes value : Bytes) : Except DecodeError Bytes := do
  ensure .limitExceeded (value.length < 2 ^ 32)
  ensure .limitExceeded (bytes.length + value.length + 4 ≤ maxExchangeBytes)
  return bytes ++ framed value

/-- One transaction of `encode_block`. The size of the block is held against its bound each time. -/
def putTransaction (bytes : Bytes) (tx : Transaction) : Except DecodeError Bytes := do
  ensure .limitExceeded (tx.toBytes.length ≤ maxTransactionBytes)
  let bytes ← putBlob bytes tx.toBytes
  ensure .limitExceeded (bytes.length ≤ maxBlockBytes)
  return bytes

def encodeBlock (block : Block) : Except DecodeError Bytes := do
  ensure .limitExceeded (block.transactions.length ≤ maxBlockTransactions)
  let bytes ← putBlob [] block.header.canonicalBytes
  ensure .limitExceeded (block.transactions.length < 2 ^ 32)
  block.transactions.foldlM putTransaction (bytes ++ leBytes 4 block.transactions.length)

section

variable (c : Suite)

def putMessage (bytes : Bytes) : NetworkMessage → Except DecodeError Bytes
  | .governance certificate => do putBlob (bytes ++ [8]) (← certificate.toBytes c.blake2s)
  | .potbAdmission certificate => do putBlob (bytes ++ [6]) (← certificate.toBytes c)
  | .potbEvidence evidence => do putBlob (bytes ++ [7]) (← evidence.toBytes c)
  | .proposal envelope block proof => do
    let bytes ← putBlob (bytes ++ [0]) envelope.encode
    let bytes ← putBlob bytes (← encodeBlock block)
    putBlob bytes proof
  | .vote v => putBlob (bytes ++ [1]) v.encode
  | .finalized block certificate => do
    let bytes ← putBlob (bytes ++ [2]) (← encodeBlock block)
    putBlob bytes (← certificate.encode)
  | .validValue block proof => do
    let bytes ← putBlob (bytes ++ [3]) (← encodeBlock block)
    putBlob bytes proof
  | .vrfContribution height contribution => do
    putBlob (bytes ++ [5] ++ u64Bytes height) (← VrfBatch.contributionBytes c contribution)
  | .transaction tx => do
    ensure .limitExceeded (tx.toBytes.length ≤ maxTransactionBytes)
    putBlob (bytes ++ [4]) tx.toBytes

def exchangeMagic : Bytes := ascii "ALNX" ++ [1, 0, 0, 0]

def encodeExchange (genesis : Hash256) (messages : List NetworkMessage) :
    Except DecodeError Bytes := do
  ensure .limitExceeded (messages.length ≤ maxMessages)
  ensure .limitExceeded (messages.length < 2 ^ 32)
  messages.foldlM (putMessage c) (exchangeMagic ++ genesis.1 ++ leBytes 4 messages.length)

end

def readBlock : Decoder Block := do
  let header ← readFramedAs 256 BlockHeader.decode
  let transactions ← readCounted 4 maxBlockTransactions 4
    (readFramedAs maxTransactionBytes Transaction.decode)
  return { header, transactions }

def decodeBlock (bytes : Bytes) : Except DecodeError Block := do
  ensure .limitExceeded (bytes.length ≤ maxBlockBytes)
  whole readBlock bytes

def blockBlob : Decoder Block := readFramedAs maxBlockBytes decodeBlock

section

variable (c : Suite)

def readBody (tag : UInt8) : Decoder NetworkMessage :=
  if tag = 8 then do
    return .governance (← readFramedAs GovernanceCertificate.maxBytes
      (GovernanceCertificate.fromBytes c.blake2s))
  else if tag = 6 then do
    return .potbAdmission (← readFramedAs AdmissionCertificate.maxBytes
      (AdmissionCertificate.fromBytes c))
  else if tag = 7 then do
    return .potbEvidence (← readFramedAs HistoricalEvidence.maxBytes
      (HistoricalEvidence.fromBytes c))
  else if tag = 0 then do
    let envelope ← readFramedAs 221 Proposal.decode
    let block ← blockBlob
    let proof ← readFramed maxBlockBytes
    return .proposal envelope block proof
  else if tag = 1 then do
    return .vote (← readFramedAs 186 Vote.decode)
  else if tag = 2 then do
    let block ← blockBlob
    let certificate ← readFramedAs maxBlockBytes FinalityCertificate.decode
    return .finalized block certificate
  else if tag = 3 then do
    let block ← blockBlob
    let proof ← readFramed maxBlockBytes
    return .validValue block proof
  else if tag = 4 then do
    return .transaction (← readFramedAs maxTransactionBytes Transaction.decode)
  else if tag = 5 then do
    let height ← readU64
    let contribution ← readFramedAs VrfContribution.encodedLen (VrfContribution.fromBytes c)
    return .vrfContribution height contribution
  else give (.error .unsupported)

def readMessage : Decoder NetworkMessage := do readBody c (← readU8)

def readExchange (genesis : Hash256) : Decoder (List NetworkMessage) := do
  expect .unsupported exchangeMagic
  let found ← readFixed 32
  check .unsupported (found = genesis)
  readCounted 4 maxMessages 5 (readMessage c)

def decodeExchange (genesis : Hash256) (bytes : Bytes) :
    Except DecodeError (List NetworkMessage) := do
  ensure .limitExceeded (bytes.length ≤ maxExchangeBytes)
  whole (readExchange c genesis) bytes

end

variable {c : Suite} {bytes out rest : Bytes}

lemma putBlob_eq_ok {value : Bytes} : putBlob bytes value = .ok out ↔
    (bytes ++ framed value).length ≤ maxExchangeBytes ∧ out = bytes ++ framed value := by
  simp only [putBlob,bind_eq_ok,ensure_eq_ok,pure_ok_iff,length_append,framed_length]
  constructor
  · rintro ⟨_,_,_,hf,rfl⟩
    exact ⟨by omega,rfl⟩
  · rintro ⟨hf,rfl⟩
    unfold maxExchangeBytes at hf ⊢
    exact ⟨(),by omega,(),by omega,rfl⟩

lemma putBlob_writes {α : Type} {write : α → Except DecodeError Bytes} {raw : α → Bytes}
    {P : α → Prop} (h : Writes write raw P) {a : α} : (write a >>= putBlob bytes) = .ok out ↔
      P a ∧ (bytes ++ framed (raw a)).length ≤ maxExchangeBytes ∧ out = bytes ++ framed (raw a) := by
  simp only [bind_eq_ok,h a,putBlob_eq_ok]
  constructor
  · rintro ⟨_,⟨ha,rfl⟩,hr⟩
    exact ⟨ha,hr⟩
  · rintro ⟨ha,hr⟩
    exact ⟨_,⟨ha,rfl⟩,hr⟩

def blockBytes (block : Block) : Bytes :=
  framed block.header.canonicalBytes ++ (leBytes 4 block.transactions.length ++
    block.transactions.flatMap fun tx => framed tx.toBytes)

lemma blockBytes_length (block : Block) : (blockBytes block).length =
    208 + (block.transactions.flatMap fun tx => framed tx.toBytes).length := by
  rw [blockBytes,length_append,length_append,framed_length,
    BlockHeader.canonicalBytes_length,leBytes_length]
  omega

structure Fits (block : Block) : Prop where
  count : block.transactions.length ≤ maxBlockTransactions
  transactions : ∀ tx ∈ block.transactions, tx.toBytes.length ≤ maxTransactionBytes
  size : (blockBytes block).length ≤ maxBlockBytes

lemma putTransaction_eq_ok {tx : Transaction} : putTransaction bytes tx = .ok out ↔
    tx.toBytes.length ≤ maxTransactionBytes ∧ (bytes ++ framed tx.toBytes).length ≤ maxBlockBytes ∧
      out = bytes ++ framed tx.toBytes := by
  simp only [putTransaction,bind_eq_ok,ensure_eq_ok,pure_ok_iff,putBlob_eq_ok]
  constructor
  · rintro ⟨_,ht,_,⟨_,rfl⟩,_,hf,rfl⟩
    exact ⟨ht,hf,rfl⟩
  · rintro ⟨ht,hf,rfl⟩
    exact ⟨(),ht,_,⟨hf.trans (by decide),rfl⟩,(),hf,rfl⟩

lemma encodeBlock_eq_ok {block : Block} : encodeBlock block = .ok out ↔
    Fits block ∧ out = blockBytes block := by
  have hst : ((framed block.header.canonicalBytes) ++ leBytes 4 block.transactions.length).length ≤
      maxBlockBytes := by
    rw [length_append,framed_length,BlockHeader.canonicalBytes_length,leBytes_length]
    decide
  have hb : framed block.header.canonicalBytes ++ leBytes 4 block.transactions.length ++
      block.transactions.flatMap (fun tx => framed tx.toBytes) = blockBytes block :=
    append_assoc ..
  have hl := @foldlM_appends _ _ putTransaction (fun tx => framed tx.toBytes)
    (fun tx => tx.toBytes.length ≤ maxTransactionBytes) maxBlockBytes
    (fun _ _ _ => putTransaction_eq_ok) block.transactions _ out hst
  simp only [encodeBlock,bind_eq_ok,ensure_eq_ok,putBlob_eq_ok,nil_append]
  constructor
  · rintro ⟨_,hc,_,⟨_,rfl⟩,_,_,h⟩
    obtain ⟨ht,hs,rfl⟩ := hl.mp h
    rw [hb] at hs ⊢
    exact ⟨⟨hc,ht,hs⟩,rfl⟩
  · rintro ⟨hf,rfl⟩
    refine ⟨(),hf.count,_,⟨?_,rfl⟩,(),Nat.lt_of_le_of_lt hf.count (by decide),?_⟩
    · rw [framed_length,BlockHeader.canonicalBytes_length]
      decide
    · refine hl.mpr ⟨hf.transactions,?_,hb.symm⟩
      rw [hb]
      exact hf.size

lemma decodes_header : Decodes BlockHeader.decode BlockHeader.canonicalBytes fun _ => True := by
  intro bytes h
  rw [BlockHeader.decode_eq_ok,true_and]

lemma decodes_transaction : Decodes Transaction.decode Transaction.toBytes Transaction.Encodable :=
  fun _ _ => Transaction.decode_eq_ok

lemma exact_readBlock : Exact readBlock blockBytes fun block =>
    block.transactions.length ≤ maxBlockTransactions ∧
      ∀ tx ∈ block.transactions, tx.Encodable ∧ tx.toBytes.length ≤ maxTransactionBytes := by
  have hh := Exact.framedAs (by decide : 256 < 2 ^ 32) decodes_header
  have hl := (Exact.framedAs (by decide : maxTransactionBytes < 2 ^ 32) decodes_transaction).counted
    (by decide : maxBlockTransactions < 256 ^ 4) (by decide : 0 < 4)
    (fun tx _ => by rw [framed_length]; omega)
  intro bytes block rest
  simp only [readBlock,bind_run_ok,pure_run_ok,hh _ _ _,hl _ _ _,blockBytes,append_assoc]
  constructor
  · rintro ⟨hdr,_,⟨_,rfl⟩,txs,_,⟨h,rfl⟩,rfl,rfl⟩
    exact ⟨h,rfl⟩
  · rintro ⟨h,rfl⟩
    refine ⟨block.header,_,⟨⟨trivial,?_⟩,rfl⟩,block.transactions,rest,⟨h,rfl⟩,rfl,rfl⟩
    rw [BlockHeader.canonicalBytes_length]
    decide

def BlockDecodable (block : Block) : Prop := Fits block ∧ ∀ tx ∈ block.transactions, tx.Encodable

lemma decodes_block : Decodes decodeBlock blockBytes BlockDecodable := by
  intro bytes block
  simp only [decodeBlock,bind_eq_ok,ensure_eq_ok,exact_readBlock.whole]
  constructor
  · rintro ⟨_,hs,⟨hc,ha⟩,rfl⟩
    exact ⟨⟨⟨hc,fun tx ht => (ha tx ht).2,hs⟩,fun tx ht => (ha tx ht).1⟩,rfl⟩
  · rintro ⟨⟨hf,ha⟩,rfl⟩
    exact ⟨(),hf.size,⟨hf.count,fun tx ht => ⟨ha tx ht,hf.transactions tx ht⟩⟩,rfl⟩

lemma exact_blockBlob : Exact blockBlob (fun block => framed (blockBytes block)) BlockDecodable := by
  intro bytes block rest
  rw [blockBlob,Exact.framedAs (by decide : maxBlockBytes < 2 ^ 32) decodes_block]
  constructor
  · rintro ⟨⟨h,_⟩,rfl⟩
    exact ⟨h,rfl⟩
  · rintro ⟨h,rfl⟩
    exact ⟨⟨h,h.1.size⟩,rfl⟩

namespace NetworkMessage

def raw : NetworkMessage → Bytes
  | .proposal envelope block proof =>
    [0] ++ (framed envelope.encode ++ (framed (blockBytes block) ++ framed proof))
  | .vote v => [1] ++ framed v.encode
  | .finalized block certificate => [2] ++ (framed (blockBytes block) ++ framed certificate.raw)
  | .validValue block proof => [3] ++ (framed (blockBytes block) ++ framed proof)
  | .transaction tx => [4] ++ framed tx.toBytes
  | .vrfContribution height contribution => [5] ++ (u64Bytes height ++ framed contribution.raw)
  | .potbAdmission certificate => [6] ++ framed certificate.raw
  | .potbEvidence evidence => [7] ++ framed evidence.raw
  | .governance certificate => [8] ++ framed certificate.raw

def Encodable (c : Suite) : NetworkMessage → Prop
  | .proposal _ block _ => Fits block
  | .vote _ => True
  | .finalized block certificate => Fits block ∧ certificate.validateShape = .ok ()
  | .validValue block _ => Fits block
  | .transaction tx => tx.toBytes.length ≤ maxTransactionBytes
  | .vrfContribution _ contribution => contribution.Canonical c
  | .potbAdmission certificate => certificate.validateShape c = .ok ()
  | .potbEvidence evidence => (∃ a, evidence.context c = .ok a) ∧ evidence.history.validateShape = .ok ()
  | .governance certificate => certificate.validateShape c.blake2s = .ok ()

def Canonical (c : Suite) : NetworkMessage → Prop
  | .proposal envelope block proof =>
    envelope.WellFormed ∧ BlockDecodable block ∧ proof.length ≤ maxBlockBytes
  | .vote _ => True
  | .finalized block certificate => BlockDecodable block ∧ certificate.validateShape = .ok ()
  | .validValue block proof => BlockDecodable block ∧ proof.length ≤ maxBlockBytes
  | .transaction tx => tx.Encodable ∧ tx.toBytes.length ≤ maxTransactionBytes
  | .vrfContribution _ contribution => contribution.Canonical c
  | .potbAdmission certificate => certificate.validateShape c = .ok ()
  | .potbEvidence evidence => evidence.Canonical c
  | .governance certificate => certificate.validateShape c.blake2s = .ok ()

variable {m : NetworkMessage}

lemma Canonical.encodable (h : m.Canonical c) : m.Encodable c := by
  cases m with
  | proposal => exact h.2.1.1
  | finalized => exact ⟨h.1.1,h.2⟩
  | validValue => exact h.1.1
  | transaction => exact h.2
  | potbEvidence => exact ⟨h.context,h.history.1⟩
  | vote | vrfContribution | potbAdmission | governance => exact h

lemma five_le_length (m : NetworkMessage) : 5 ≤ m.raw.length := by
  cases m <;> simp only [raw,length_append,length_singleton,framed_length] <;> omega

end NetworkMessage

lemma putMessage_eq_ok {m : NetworkMessage} : putMessage c bytes m = .ok out ↔
    m.Encodable c ∧ (bytes ++ m.raw).length ≤ maxExchangeBytes ∧ out = bytes ++ m.raw := by
  -- a blob that fits leaves the blobs before it within the limit
  have hsh : ∀ {a b : Bytes}, (a ++ b).length ≤ maxExchangeBytes → a.length ≤ maxExchangeBytes := by
    intro a b h
    rw [length_append] at h
    omega
  cases m with
  | governance cert =>
    exact (putBlob_writes GovernanceCertificate.writes).trans (by rw [append_assoc]; rfl)
  | potbAdmission cert =>
    exact (putBlob_writes AdmissionCertificate.writes).trans (by rw [append_assoc]; rfl)
  | potbEvidence evidence =>
    have hw : Writes (HistoricalEvidence.toBytes c) HistoricalEvidence.raw fun e =>
        (∃ a, e.context c = .ok a) ∧ e.history.validateShape = .ok () := fun _ _ =>
      HistoricalEvidence.toBytes_eq_ok.trans and_assoc.symm
    exact (putBlob_writes hw).trans (by rw [append_assoc]; rfl)
  | proposal envelope block pf =>
    simp only [putMessage,bind_eq_ok,encodeBlock_eq_ok,putBlob_eq_ok]
    constructor
    · rintro ⟨_,⟨_,rfl⟩,_,⟨hb,rfl⟩,_,⟨_,rfl⟩,hf,rfl⟩
      simp only [append_assoc] at hf ⊢
      exact ⟨hb,hf,rfl⟩
    · rintro ⟨hb,hf,rfl⟩
      have hr : bytes ++ NetworkMessage.raw (.proposal envelope block pf) =
          bytes ++ [0] ++ framed envelope.encode ++ framed (blockBytes block) ++ framed pf := by
        simp only [NetworkMessage.raw,append_assoc]
      rw [hr] at hf ⊢
      exact ⟨_,⟨hsh (hsh hf),rfl⟩,_,⟨hb,rfl⟩,_,⟨hsh hf,rfl⟩,hf,rfl⟩
  | vote v =>
    simp only [putMessage,putBlob_eq_ok,append_assoc]
    exact ⟨fun h => ⟨trivial,h⟩,fun h => h.2⟩
  | finalized block cert =>
    have he : ∀ {b : Bytes}, cert.encode = .ok b ↔
        cert.validateShape = .ok () ∧ b = cert.raw := fun {b} => by
      rw [← FinalityCertificate.decode_eq_ok,FinalityCertificate.decodes]
    simp only [putMessage,bind_eq_ok,encodeBlock_eq_ok,putBlob_eq_ok,he]
    constructor
    · rintro ⟨_,⟨hb,rfl⟩,_,⟨_,rfl⟩,_,⟨hs,rfl⟩,hf,rfl⟩
      simp only [append_assoc] at hf ⊢
      exact ⟨⟨hb,hs⟩,hf,rfl⟩
    · rintro ⟨⟨hb,hs⟩,hf,rfl⟩
      have hr : bytes ++ NetworkMessage.raw (.finalized block cert) =
          bytes ++ [2] ++ framed (blockBytes block) ++ framed cert.raw := by
        simp only [NetworkMessage.raw,append_assoc]
      rw [hr] at hf ⊢
      exact ⟨_,⟨hb,rfl⟩,_,⟨hsh hf,rfl⟩,_,⟨hs,rfl⟩,hf,rfl⟩
  | validValue block pf =>
    simp only [putMessage,bind_eq_ok,encodeBlock_eq_ok,putBlob_eq_ok]
    constructor
    · rintro ⟨_,⟨hb,rfl⟩,_,⟨_,rfl⟩,hf,rfl⟩
      simp only [append_assoc] at hf ⊢
      exact ⟨hb,hf,rfl⟩
    · rintro ⟨hb,hf,rfl⟩
      have hr : bytes ++ NetworkMessage.raw (.validValue block pf) =
          bytes ++ [3] ++ framed (blockBytes block) ++ framed pf := by
        simp only [NetworkMessage.raw,append_assoc]
      rw [hr] at hf ⊢
      exact ⟨_,⟨hb,rfl⟩,_,⟨hsh hf,rfl⟩,hf,rfl⟩
  | vrfContribution height contribution =>
    exact (putBlob_writes VrfContribution.writes).trans (by rw [append_assoc,append_assoc]; rfl)
  | transaction tx =>
    simp only [putMessage,bind_eq_ok,ensure_eq_ok,putBlob_eq_ok,append_assoc]
    constructor
    · rintro ⟨_,ht,hf,rfl⟩
      exact ⟨ht,hf,rfl⟩
    · rintro ⟨ht,hf,rfl⟩
      exact ⟨(),ht,hf,rfl⟩

def exchangeBytes (genesis : Hash256) (messages : List NetworkMessage) : Bytes :=
  exchangeMagic ++ (genesis.1 ++ (leBytes 4 messages.length ++ messages.flatMap NetworkMessage.raw))

lemma exchangeBytes_length (gen : Hash256) (msgs : List NetworkMessage) :
    (exchangeBytes gen msgs).length = 44 + (msgs.flatMap NetworkMessage.raw).length := by
  have hm : exchangeMagic.length = 8 := by decide
  rw [exchangeBytes,length_append,length_append,length_append,hm,gen.2,leBytes_length]
  omega

lemma encodeExchange_eq_ok {gen : Hash256} {messages : List NetworkMessage} :
    encodeExchange c gen messages = .ok out ↔
      (messages.length ≤ maxMessages ∧ (∀ m ∈ messages, m.Encodable c) ∧
        (exchangeBytes gen messages).length ≤ maxExchangeBytes) ∧
        out = exchangeBytes gen messages := by
  have hm : exchangeMagic.length = 8 := by decide
  have hs : (exchangeMagic ++ gen.1 ++ leBytes 4 messages.length).length ≤ maxExchangeBytes := by
    rw [length_append,length_append,hm,gen.2,leBytes_length]
    decide
  have hb : exchangeMagic ++ gen.1 ++ leBytes 4 messages.length ++
      messages.flatMap NetworkMessage.raw = exchangeBytes gen messages := by
    simp only [exchangeBytes,append_assoc]
  have hl := @foldlM_appends _ _ (putMessage c) NetworkMessage.raw (NetworkMessage.Encodable c)
    maxExchangeBytes (fun _ _ _ => putMessage_eq_ok) messages _ out hs
  rw [hb] at hl
  simp only [encodeExchange,bind_eq_ok,ensure_eq_ok,hl]
  constructor
  · rintro ⟨_,hc,_,_,ha,hf,rfl⟩
    exact ⟨⟨hc,ha,hf⟩,rfl⟩
  · rintro ⟨⟨hc,ha,hf⟩,rfl⟩
    exact ⟨(),hc,(),Nat.lt_of_le_of_lt hc (by decide),ha,hf,rfl⟩

lemma decodes_proposal : Decodes Proposal.decode Proposal.encode Proposal.WellFormed :=
  fun _ _ => Proposal.exact.whole

lemma proposal_length (p : Proposal) : p.encode.length = 221 := by
  have hm : (ascii "ALPR").length = 4 := by decide
  have hr : (roundBytes p.validRound).length = 5 := by
    cases p.validRound <;> simp [roundBytes]
  simp only [Proposal.encode,Proposal.signingBytes,length_append,hm,hr,u32Bytes_length,
    u64Bytes_length,p.genesis.2,p.committeeRoot.2,p.block.2,p.proposer.2,p.signature.2]

lemma decodes_vote : Decodes Vote.decode Vote.encode fun _ => True := by
  intro bytes v
  rw [Vote.decode_eq_ok,true_and]

lemma certificate_length {cert : FinalityCertificate} (h : cert.validateShape = .ok ()) :
    cert.raw.length ≤ maxBlockBytes := by
  have hc := (FinalityCertificate.shape_of_validate h).2
  rw [FinalityCertificate.raw_length]
  unfold maxCommitteeMembers at hc
  unfold maxBlockBytes
  omega

lemma exact_blob {α : Type} {lim : Nat} {decode : Bytes → Except DecodeError α} {raw : α → Bytes}
    {P : α → Prop} (hli : lim < 2 ^ 32) (h : Decodes decode raw P)
    (hl : ∀ a, P a → (raw a).length ≤ lim) :
    Exact (readFramedAs lim decode) (fun a => framed (raw a)) P := by
  intro bytes a rest
  rw [Exact.framedAs hli h bytes a rest]
  exact and_congr_left fun _ => and_iff_left_of_imp (hl a)

section Blobs


lemma exact_governance : Exact (readFramedAs GovernanceCertificate.maxBytes
    (GovernanceCertificate.fromBytes c.blake2s)) (fun a => framed a.raw)
    fun a => a.validateShape c.blake2s = .ok () :=
  exact_blob (by decide) (fun _ _ => GovernanceCertificate.fromBytes_eq_ok)
    fun _ h => GovernanceCertificate.raw_length h

lemma exact_admission : Exact (readFramedAs AdmissionCertificate.maxBytes
    (AdmissionCertificate.fromBytes c)) (fun a => framed a.raw) fun a => a.validateShape c = .ok () :=
  exact_blob (by decide) (fun _ _ => AdmissionCertificate.fromBytes_eq_ok)
    fun _ h => AdmissionCertificate.raw_length h

lemma exact_evidence : Exact (readFramedAs HistoricalEvidence.maxBytes
    (HistoricalEvidence.fromBytes c)) (fun a => framed a.raw) (HistoricalEvidence.Canonical c) :=
  exact_blob (by decide) (fun _ _ => HistoricalEvidence.fromBytes_eq_ok)
    fun _ h => HistoricalEvidence.raw_length h

lemma exact_contribution : Exact (readFramedAs VrfContribution.encodedLen
    (VrfContribution.fromBytes c)) (fun a => framed a.raw) (VrfContribution.Canonical c) :=
  exact_blob (by decide) (fun _ _ => VrfContribution.fromBytes_eq_ok)
    fun _ h => (VrfContribution.raw_length h).le

lemma exact_proposal : Exact (readFramedAs 221 Proposal.decode) (fun p => framed p.encode)
    Proposal.WellFormed :=
  exact_blob (by decide) decodes_proposal fun p _ => (proposal_length p).le

lemma exact_vote : Exact (readFramedAs 186 Vote.decode) (fun v => framed v.encode)
    fun _ => True :=
  exact_blob (by decide) decodes_vote fun v _ => v.encode_length.le

lemma exact_certificate : Exact (readFramedAs maxBlockBytes FinalityCertificate.decode)
    (fun f => framed f.raw) fun f => f.validateShape = .ok () :=
  exact_blob (by decide) FinalityCertificate.decodes fun _ h => certificate_length h

lemma exact_transaction : Exact (readFramedAs maxTransactionBytes Transaction.decode)
    (fun tx => framed tx.toBytes) fun tx => tx.Encodable ∧ tx.toBytes.length ≤ maxTransactionBytes :=
  Exact.framedAs (by decide) decodes_transaction

lemma exact_proof : Exact (readFramed maxBlockBytes) framed (·.length ≤ maxBlockBytes) := by
  intro bytes pf rest
  rw [readFramed_run_ok]
  have hl : maxBlockBytes < 2 ^ 32 := by decide
  exact and_congr_left fun _ => and_iff_left_of_imp fun h => Nat.lt_of_le_of_lt h hl

end Blobs

lemma exact_readMessage : Exact (readMessage c) NetworkMessage.raw (NetworkMessage.Canonical c) := by
  intro bytes m rest
  simp only [readMessage,bind_run_ok,readU8_run_ok]
  constructor
  · rintro ⟨tag,body,rfl,hbo⟩
    unfold readBody at hbo
    split_ifs at hbo with h8 h6 h7 h0 h1 h2 h3 h4 h5
    · obtain ⟨_,h,rfl,rfl⟩ := exact_governance.run_one.mp hbo
      exact ⟨h,h8 ▸ rfl⟩
    · obtain ⟨_,h,rfl,rfl⟩ := exact_admission.run_one.mp hbo
      exact ⟨h,h6 ▸ rfl⟩
    · obtain ⟨_,h,rfl,rfl⟩ := exact_evidence.run_one.mp hbo
      exact ⟨h,h7 ▸ rfl⟩
    · obtain ⟨_,_,he,rfl,hr⟩ := exact_proposal.run_next.mp hbo
      obtain ⟨_,_,hb,rfl,hl⟩ := exact_blockBlob.run_next.mp hr
      obtain ⟨_,hp,rfl,rfl⟩ := exact_proof.run_one.mp hl
      exact ⟨⟨he,hb,hp⟩,by simp only [h0,NetworkMessage.raw,append_assoc]⟩
    · obtain ⟨_,h,rfl,rfl⟩ := exact_vote.run_one.mp hbo
      exact ⟨h,h1 ▸ rfl⟩
    · obtain ⟨_,_,hb,rfl,hr⟩ := exact_blockBlob.run_next.mp hbo
      obtain ⟨_,hc,rfl,rfl⟩ := exact_certificate.run_one.mp hr
      exact ⟨⟨hb,hc⟩,by simp only [h2,NetworkMessage.raw,append_assoc]⟩
    · obtain ⟨_,_,hb,rfl,hr⟩ := exact_blockBlob.run_next.mp hbo
      obtain ⟨_,hp,rfl,rfl⟩ := exact_proof.run_one.mp hr
      exact ⟨⟨hb,hp⟩,by simp only [h3,NetworkMessage.raw,append_assoc]⟩
    · obtain ⟨_,h,rfl,rfl⟩ := exact_transaction.run_one.mp hbo
      exact ⟨h,h4 ▸ rfl⟩
    · obtain ⟨_,_,hh,hr⟩ := bind_run_ok.mp hbo
      obtain ⟨_,h,rfl,rfl⟩ := exact_contribution.run_one.mp hr
      obtain rfl := readU64_run_ok.mp hh
      exact ⟨h,by simp only [h5,NetworkMessage.raw,append_assoc]⟩
    · cases (give_run_ok.mp hbo).1
  · rintro ⟨h,rfl⟩
    cases m with
    | governance cert =>
      exact ⟨8,_,append_assoc ..,exact_governance.run_one.mpr ⟨cert,h,rfl,rfl⟩⟩
    | potbAdmission cert =>
      exact ⟨6,_,append_assoc ..,exact_admission.run_one.mpr ⟨cert,h,rfl,rfl⟩⟩
    | potbEvidence evidence =>
      exact ⟨7,_,append_assoc ..,exact_evidence.run_one.mpr ⟨evidence,h,rfl,rfl⟩⟩
    | proposal envelope block pf =>
      obtain ⟨he,hb,hp⟩ := h
      refine ⟨0,_,append_assoc ..,exact_proposal.run_next.mpr ⟨envelope,_,he,?_,
        exact_blockBlob.run_next.mpr ⟨block,_,hb,rfl, exact_proof.run_one.mpr ⟨pf,hp,rfl,rfl⟩⟩⟩⟩
      simp only [append_assoc]
    | vote v => exact ⟨1,_,append_assoc ..,exact_vote.run_one.mpr ⟨v,trivial,rfl,rfl⟩⟩
    | finalized block cert =>
      exact ⟨2,_,append_assoc ..,exact_blockBlob.run_next.mpr ⟨block,_,h.1,append_assoc ..,
        exact_certificate.run_one.mpr ⟨cert,h.2,rfl,rfl⟩⟩⟩
    | validValue block pf =>
      exact ⟨3,_,append_assoc ..,exact_blockBlob.run_next.mpr ⟨block,_,h.1,append_assoc ..,
        exact_proof.run_one.mpr ⟨pf,h.2,rfl,rfl⟩⟩⟩
    | transaction tx =>
      exact ⟨4,_,append_assoc ..,exact_transaction.run_one.mpr ⟨tx,h,rfl,rfl⟩⟩
    | vrfContribution height contribution =>
      exact ⟨5,_,append_assoc ..,bind_run_ok.mpr ⟨height,_, readU64_run_ok.mpr (append_assoc ..),
        exact_contribution.run_one.mpr ⟨contribution,h,rfl,rfl⟩⟩⟩

lemma decodeExchange_eq_ok {gen : Hash256} {messages : List NetworkMessage} :
    decodeExchange c gen bytes = .ok messages ↔
      (messages.length ≤ maxMessages ∧ (∀ m ∈ messages, m.Canonical c) ∧
        (exchangeBytes gen messages).length ≤ maxExchangeBytes) ∧
        bytes = exchangeBytes gen messages := by
  have hl := exact_readMessage.counted (by decide : maxMessages < 256 ^ 4) (by decide : 0 < 5)
    (fun m (_ : m.Canonical c) => m.five_le_length)
  simp only [decodeExchange,bind_eq_ok,ensure_eq_ok,whole_eq_ok,readExchange,
    bind_run_ok,expect_run_ok,readFixed_run_ok,check_run_ok,
    hl _ _ _]
  constructor
  · rintro ⟨_,hf,_,_,rfl,_,_,rfl,_,_,⟨rfl,rfl⟩,⟨hc,ha⟩,rfl⟩
    rw [append_nil] at hf ⊢
    exact ⟨⟨hc,ha,hf⟩,rfl⟩
  · rintro ⟨⟨hc,ha,hf⟩,rfl⟩
    exact ⟨(),hf,(),_,rfl,gen,_,rfl,(),_,⟨rfl,rfl⟩,⟨hc,ha⟩,(append_nil _).symm⟩

namespace NetworkMessage

def Decodable (c : Suite) : NetworkMessage → Prop
  | .proposal envelope block _ =>
    (∃ bytes, Proposal.decode bytes = .ok envelope) ∧ ∃ bytes, decodeBlock bytes = .ok block
  | .vote v => ∃ bytes, Vote.decode bytes = .ok v
  | .finalized block certificate =>
    (∃ bytes, decodeBlock bytes = .ok block) ∧
      ∃ bytes, FinalityCertificate.decode bytes = .ok certificate
  | .validValue block _ => ∃ bytes, decodeBlock bytes = .ok block
  | .transaction tx => ∃ bytes, Transaction.decode bytes = .ok tx
  | .vrfContribution _ contribution => ∃ bytes, VrfContribution.fromBytes c bytes = .ok contribution
  | .potbAdmission certificate => ∃ bytes, AdmissionCertificate.fromBytes c bytes = .ok certificate
  | .potbEvidence evidence => ∃ bytes, HistoricalEvidence.fromBytes c bytes = .ok evidence
  | .governance certificate =>
    ∃ bytes, GovernanceCertificate.fromBytes c.blake2s bytes = .ok certificate

def proof : NetworkMessage → Bytes
  | .proposal _ _ proof => proof
  | .validValue _ proof => proof
  | _ => []

lemma canonical_of_decodable {m : NetworkMessage} (h : m.Decodable c) (he : m.Encodable c)
    (hp : m.proof.length ≤ maxBlockBytes) : m.Canonical c := by
  cases m with
  | proposal envelope block pf =>
    obtain ⟨⟨_,hen⟩,_,hb⟩ := h
    exact ⟨((decodes_proposal _ _).mp hen).1,((decodes_block _ _).mp hb).1,hp⟩
  | finalized block cert =>
    obtain ⟨⟨_,hb⟩,_,hc⟩ := h
    exact ⟨((decodes_block _ _).mp hb).1,((FinalityCertificate.decodes _ _).mp hc).1⟩
  | validValue block pf =>
    obtain ⟨_,hb⟩ := h
    exact ⟨((decodes_block _ _).mp hb).1,hp⟩
  | transaction tx =>
    obtain ⟨_,ht⟩ := h
    exact ⟨((decodes_transaction _ _).mp ht).1,he⟩
  | potbEvidence evidence =>
    obtain ⟨_,hev⟩ := h
    exact (HistoricalEvidence.fromBytes_eq_ok.mp hev).1
  | vote | vrfContribution | potbAdmission | governance => exact he

end NetworkMessage

/-- With proofs of at most the size of a block, what is encoded is decoded to the same messages; and
what is decoded is encoded, to the byte, from its messages, for one genesis only. -/
theorem exchange_exact (c : Suite) :
    (∀ genesis messages bytes, (∀ m ∈ messages, m.Decodable c) →
      (∀ m ∈ messages, m.proof.length ≤ maxBlockBytes) →
      encodeExchange c genesis messages = .ok bytes →
      decodeExchange c genesis bytes = .ok messages) ∧
    ∀ genesis bytes messages, decodeExchange c genesis bytes = .ok messages →
      encodeExchange c genesis messages = .ok bytes ∧
      ∀ other, other ≠ genesis → ∀ found, decodeExchange c other bytes ≠ .ok found := by
  refine ⟨fun genesis messages bytes hp hpr he => ?_,fun genesis bytes messages h => ?_⟩
  · obtain ⟨⟨hc,ha,hf⟩,rfl⟩ := encodeExchange_eq_ok.mp he
    refine decodeExchange_eq_ok.mpr ⟨⟨hc,fun m hm => ?_,hf⟩,rfl⟩
    exact NetworkMessage.canonical_of_decodable (hp m hm) (ha m hm) (hpr m hm)
  · obtain ⟨⟨hc,ha,hf⟩,rfl⟩ := decodeExchange_eq_ok.mp h
    refine ⟨encodeExchange_eq_ok.mpr ⟨⟨hc,fun m hm => (ha m hm).encodable,hf⟩,rfl⟩,?_⟩
    intro other ho found hfo
    obtain ⟨-,hb⟩ := decodeExchange_eq_ok.mp hfo
    -- the genesis stands at the same place in both
    have ht := append_cancel_left hb
    have hh := (append_inj ht (genesis.2.trans other.2.symm)).1
    exact ho (Subtype.ext hh.symm)

namespace Sample

def block : Block where
  header :=
    { height := 1, parent := Hash256.zero, transactionsRoot := Hash256.zero, stateRoot := Hash256.zero,
      receiptsRoot := Hash256.zero, committeeRoot := Hash256.zero, capacity := ⟨1, 1, 1, 1⟩ }
  transactions := []

lemma block_decodable : BlockDecodable block :=
  ⟨⟨by decide,by simp [block],by rw [blockBytes_length]; decide⟩,by simp [block]⟩

def vote : Vote := ⟨7, Hash256.zero, 1, 0, .precommit, none, Hash256.zero, TwoSteps.signature⟩

def transaction : Transaction :=
  { version := 1, expiresAt := 9, lane := .payments, resourcePrices := .zero, chainId := 7,
    sender := Fixed.fill 32 5, nonce := 0, accessList := [[1, 2]],
    resourceLimit := .zero, payload := [3], signature := Fixed.fill 64 6 }

def filled : Block := { block with transactions := [transaction] }

lemma transaction_encodable : transaction.Encodable := ⟨rfl,by decide,by decide,by decide⟩

lemma filled_decodable : BlockDecodable filled :=
  ⟨⟨by decide,by decide +kernel,by decide +kernel⟩,forall_mem_singleton.mpr transaction_encodable⟩

/-- The proposal of a block again that a majority prevoted in the round before. -/
def proposal : Proposal :=
  ⟨7, Hash256.zero, 1, 1, Hash256.zero, Hash256.zero, Hash256.zero, some 0, TwoSteps.signature⟩

def messages : List NetworkMessage :=
  [.proposal proposal filled [1, 2, 3], .validValue filled [4], .vote vote,
    .transaction transaction]

lemma messages_decodable : ∀ m ∈ messages, m.Decodable TwoSteps.suite := by
  have hp : proposal.WellFormed := by
    rintro round ⟨⟩
    decide
  have hb := (decodes_block _ _).mpr ⟨filled_decodable,rfl⟩
  have ht := Transaction.decode_toBytes transaction_encodable
  simp only [messages,forall_mem_cons]
  exact ⟨⟨⟨_,(decodes_proposal _ _).mpr ⟨hp,rfl⟩⟩,_,hb⟩,⟨_,hb⟩,⟨_,Vote.decode_eq_ok.mpr rfl⟩,
    ⟨_,ht⟩,forall_mem_nil _⟩

end Sample

open Sample in
theorem exchange_exact_messages :
    decodeExchange TwoSteps.suite Hash256.zero (exchangeBytes Hash256.zero messages) =
      .ok messages ∧
    encodeExchange TwoSteps.suite Hash256.zero messages =
      .ok (exchangeBytes Hash256.zero messages) := by
  have he : encodeExchange TwoSteps.suite Hash256.zero messages =
      .ok (exchangeBytes Hash256.zero messages) := by
    refine encodeExchange_eq_ok.mpr ⟨⟨by decide,?_,by decide +kernel⟩,rfl⟩
    have ht : transaction.toBytes.length ≤ maxTransactionBytes := by decide +kernel
    simp only [messages,forall_mem_cons]
    exact ⟨filled_decodable.1,filled_decodable.1,trivial,ht,forall_mem_nil _⟩
  have hd := (exchange_exact TwoSteps.suite).1 Hash256.zero messages _ messages_decodable
    (by decide +kernel) he
  exact ⟨hd,((exchange_exact TwoSteps.suite).2 _ _ _ hd).1⟩

/-- A proof of one byte more than a block may have is sent, and not read. -/
theorem exchange_drops_long_proof : ∃ (genesis : Hash256) (m : NetworkMessage) (bytes : Bytes),
    m.Decodable TwoSteps.suite ∧ encodeExchange TwoSteps.suite genesis [m] = .ok bytes ∧
      decodeExchange TwoSteps.suite genesis bytes ≠ .ok [m] := by
  let proof : Bytes := replicate (maxBlockBytes + 1) 0
  let m : NetworkMessage := .validValue Sample.block proof
  have hp : proof.length = maxBlockBytes + 1 := length_replicate
  have hb : (blockBytes Sample.block).length = 208 := blockBytes_length _
  have hs : (exchangeBytes Hash256.zero [m]).length ≤ maxExchangeBytes := by
    simp only [m,exchangeBytes_length,flatMap_singleton,NetworkMessage.raw,length_append,
      length_singleton,framed_length,hb,hp]
    decide
  refine ⟨Hash256.zero,m,exchangeBytes Hash256.zero [m],⟨_,(decodes_block _ _).mpr
    ⟨Sample.block_decodable,rfl⟩⟩,encodeExchange_eq_ok.mpr ⟨⟨by decide,?_,hs⟩,rfl⟩,fun h => ?_⟩
  · exact forall_mem_singleton.mpr Sample.block_decodable.1
  · obtain ⟨⟨-,ha,-⟩,-⟩ := decodeExchange_eq_ok.mp h
    have hl : proof.length ≤ maxBlockBytes := (forall_mem_singleton.mp ha).2
    omega

end Astrolune.Network
