import Astrolune.Network.Exchange

namespace Astrolune.Network
open Lib Codec Crypto Consensus Decoder Reader List

def maxKnownTransactions : Nat := 256

def maxDictionaryBytes : Nat := 2 * 1024 * 1024

def maxCompactRequestBytes : Nat := 50 + maxKnownTransactions * 32

def requestMagic : Bytes := ascii "ALCQ" ++ [1, 0, 0, 0]

def responseMagic : Bytes := ascii "ALCX" ++ [1, 0, 0, 0]

structure KnownTransaction where
  transaction : Transaction
  encodedLen : Nat

structure TransactionDictionary where
  transactions : OrderedMap Hash256 KnownTransaction

namespace TransactionDictionary

variable (H : Hasher)

/-- One candidate: kept unless it is too large, not canonical or there already. -/
def consider (acc : TransactionDictionary × Nat) (tx : Transaction) : TransactionDictionary × Nat :=
  if maxTransactionBytes < tx.estimateEncodedLen then acc
  else if maxTransactionBytes < tx.toBytes.length ∨ maxDictionaryBytes < acc.2 + tx.toBytes.length ∨
      (Transaction.decode tx.toBytes).isOk = false then acc
  else if (acc.1.transactions.get (tx.computeTxId H)).isSome then acc
  else (⟨acc.1.transactions.insert (tx.computeTxId H) ⟨tx, tx.toBytes.length⟩⟩,
    acc.2 + tx.toBytes.length)

def new (transactions : List Transaction) : TransactionDictionary :=
  ((transactions.take maxKnownTransactions).foldl (consider H) (⟨.empty⟩, 0)).1

def ids (d : TransactionDictionary) : List Hash256 := d.transactions.entries.map (·.1)

end TransactionDictionary

structure SyncRequest where
  genesis : Hash256
  height : UInt64
  deriving DecidableEq

structure CompactRequest where
  sync : SyncRequest
  known : List Hash256
  deriving DecidableEq

def checkKnown (known : List Hash256) : Except DecodeError Unit := do
  ensure .limitExceeded (known.length ≤ maxKnownTransactions)
  ensure .nonCanonical (ascending known = true)

namespace CompactRequest

def new (sync : SyncRequest) (d : TransactionDictionary) : CompactRequest := ⟨sync, d.ids⟩

def encode (r : CompactRequest) : Bytes :=
  requestMagic ++ (r.sync.genesis.1 ++ (u64Bytes r.sync.height ++
    (leBytes 2 r.known.length ++ r.known.flatMap Subtype.val)))

def read : Decoder CompactRequest := do
  expect .unsupported requestMagic
  let genesis ← readFixed 32
  let height ← readU64
  let known ← readCounted 2 maxKnownTransactions 32 (readFixed 32)
  return { sync := { genesis, height }, known }

def decode (bytes : Bytes) : Except DecodeError CompactRequest := do
  ensure .limitExceeded (bytes.length ≤ maxCompactRequestBytes)
  let request ← whole read bytes
  checkKnown request.known
  return request

end CompactRequest

namespace NetworkMessage

def block? : NetworkMessage → Option Block
  | .proposal _ block _ => some block
  | .finalized block _ => some block
  | .validValue block _ => some block
  | _ => none

def withBlock (block : Block) : NetworkMessage → NetworkMessage
  | .proposal envelope _ proof => .proposal envelope block proof
  | .finalized _ certificate => .finalized block certificate
  | .validValue _ proof => .validValue block proof
  | m => m

def skeleton (m : NetworkMessage) : NetworkMessage :=
  match m.block? with
  | some block => m.withBlock { block with transactions := [] }
  | none => m

end NetworkMessage

def append (bytes value : Bytes) : Except DecodeError Bytes := do
  ensure .limitExceeded (bytes.length + value.length ≤ maxExchangeBytes)
  return bytes ++ value

def appendBlob (bytes value : Bytes) : Except DecodeError Bytes := do
  ensure .limitExceeded (value.length < 2 ^ 32)
  let bytes ← append bytes (leBytes 4 value.length)
  append bytes value

section

variable (c : Suite)

def appendTransaction (known : List Hash256) (bytes : Bytes) (tx : Transaction) :
    Except DecodeError Bytes :=
  if tx.computeTxId c.blake2s ∈ known then do
    let bytes ← append bytes [0]
    append bytes (tx.computeTxId c.blake2s).1
  else do
    let bytes ← append bytes [1]
    appendBlob bytes tx.toBytes

def appendBody (known : List Hash256) (bytes : Bytes) (body : List Transaction) :
    Except DecodeError Bytes := do
  ensure .limitExceeded (body.length < 2 ^ 16)
  let bytes ← append bytes (leBytes 2 body.length)
  body.foldlM (appendTransaction c known) bytes

def bodies (messages : List NetworkMessage) : List (List Transaction) :=
  (messages.filterMap NetworkMessage.block?).map (·.transactions)

def encodeCompact (genesis : Hash256) (messages : List NetworkMessage) (known : List Hash256) :
    Except DecodeError Bytes := do
  let skeleton ← encodeExchange c genesis (messages.map NetworkMessage.skeleton)
  let bytes ← appendBlob responseMagic skeleton
  (bodies messages).foldlM (appendBody c known) bytes

def encodeResponse (genesis : Hash256) (messages : List NetworkMessage) (known : List Hash256) :
    Except DecodeError Bytes := do
  checkKnown known
  let legacy ← encodeExchange c genesis messages
  if known = [] ∨ bodies messages = [] then return legacy
  else
    match encodeCompact c genesis messages known with
    | .ok compact => if compact.length < legacy.length then .ok compact else .ok legacy
    | .error .limitExceeded => .ok legacy
    | .error error => .error error

structure Sizes where
  block : Nat
  exchange : Nat

def charge (sizes : Sizes) (length : Nat) : Except DecodeError Sizes := do
  let charged : Sizes := ⟨sizes.block + (length + 4), sizes.exchange + (length + 4)⟩
  ensure .limitExceeded (charged.block ≤ maxBlockBytes ∧ charged.exchange ≤ maxExchangeBytes)
  return charged

def readTransaction (d : TransactionDictionary) (sizes : Sizes) : Decoder (Transaction × Sizes) := do
  let tag ← readU8
  if tag = 0 then do
    let id ← readFixed 32
    let known ← give (okOr .unsupported (d.transactions.get id))
    let sizes ← give (charge sizes known.encodedLen)
    return (known.transaction, sizes)
  else if tag = 1 then do
    let length ← readDigits 4
    check .limitExceeded (length ≤ maxTransactionBytes)
    let sizes ← give (charge sizes length)
    let bytes ← readExact length
    let tx ← give (Transaction.decode bytes)
    return (tx, sizes)
  else give (.error .unsupported)

def readTransactions (d : TransactionDictionary) : Nat → Sizes → Decoder (List Transaction × Nat)
  | 0, sizes => return ([], sizes.exchange)
  | count+1, sizes => do
    let (tx, sizes) ← readTransaction d sizes
    let (rest, exchange) ← readTransactions d count sizes
    return (tx :: rest, exchange)

def fillBlock (d : TransactionDictionary) (exchange : Nat) (block : Block) : Decoder (Block × Nat) := do
  check .nonCanonical (block.transactions = [])
  let count ← readDigits 2
  let left ← remaining
  check .limitExceeded (count ≤ 256 ∧ count ≤ left / 5)
  let empty ← give (encodeBlock block)
  let (transactions, exchange) ← readTransactions d count ⟨empty.length, exchange⟩
  return ({ block with transactions }, exchange)

def fillMessage (d : TransactionDictionary) (exchange : Nat) (m : NetworkMessage) :
    Decoder (NetworkMessage × Nat) :=
  match m.block? with
  | some block => do
    let (block, exchange) ← fillBlock d exchange block
    return (m.withBlock block, exchange)
  | none => return (m, exchange)

def fillMessages (d : TransactionDictionary) :
    Nat → List NetworkMessage → Decoder (List NetworkMessage)
  | _, [] => return []
  | exchange, m :: rest => do
    let (m, exchange) ← fillMessage d exchange m
    let rest ← fillMessages d exchange rest
    return m :: rest

def readResponse (genesis : Hash256) (d : TransactionDictionary) : Decoder (List NetworkMessage) := do
  expect .unsupported responseMagic
  let skeleton ← readFramed maxExchangeBytes
  let messages ← give (decodeExchange c genesis skeleton)
  fillMessages d skeleton.length messages

def decodeResponse (genesis : Hash256) (bytes : Bytes) (d : TransactionDictionary) :
    Except DecodeError (List NetworkMessage) :=
  if bytes.take 8 = exchangeMagic then decodeExchange c genesis bytes
  else do
    ensure .limitExceeded (bytes.length ≤ maxExchangeBytes)
    whole (readResponse c genesis d) bytes

end

variable {tx : Transaction} {messages msgs : List NetworkMessage} {sizes : Sizes}
  {considered : List Transaction} {exchange : Nat}

lemma sized_of_estimate (h : tx.estimateEncodedLen ≤ maxTransactionBytes) : tx.Sized := by
  unfold Transaction.estimateEncodedLen at h
  cases hs : tx.encodedLen with
  | none =>
    rw [hs] at h
    exact absurd h (by decide)
  | some size => exact (Transaction.encodedLen_iff.mp hs).1.1

lemma encodable_of_decode (h : tx.Sized) (hde : (Transaction.decode tx.toBytes).isOk = true) :
    tx.Encodable := by
  cases hd : Transaction.decode tx.toBytes with
  | error e =>
    rw [hd] at hde
    cases hde
  | ok tx' =>
    obtain ⟨he,hb⟩ := Transaction.decode_eq_ok.mp hd
    rw [Transaction.toBytes_injective h he.sized hb]
    exact he

namespace TransactionDictionary

variable {H : Hasher} {d : TransactionDictionary}

/-- Every entry is one of the transactions considered, fit to be sent, under its own identifier. -/
structure Holds (H : Hasher) (d : TransactionDictionary)
    (considered : List Transaction) : Prop where
  known : ∀ id k, d.transactions.get id = some k → k.transaction.computeTxId H = id ∧
    k.transaction.Encodable ∧ k.encodedLen = k.transaction.toBytes.length ∧
    k.transaction.toBytes.length ≤ maxTransactionBytes
  source : ∀ id k, d.transactions.get id = some k → k.transaction ∈ considered
  count : d.transactions.entries.length ≤ considered.length

variable {considered : List Transaction}

variable {acc : TransactionDictionary × Nat}

lemma Holds.consider (h : acc.1.Holds H considered) (tx : Transaction) :
    (TransactionDictionary.consider H acc tx).1.Holds H (considered ++ [tx]) := by
  have hl : (considered ++ [tx]).length = considered.length + 1 := length_append
  have hs : acc.1.Holds H (considered ++ [tx]) :=
    ⟨h.known,fun id k hk => mem_append_left _ (h.source id k hk), h.count.trans (hl ▸ Nat.le_succ _)⟩
  unfold TransactionDictionary.consider
  split
  · exact hs
  · next he =>
    split
    · exact hs
    · next hc =>
      split
      · exact hs
      · next hn =>
        rw [not_or,not_or,Nat.not_lt,Bool.not_eq_false] at hc
        have hno : acc.1.transactions.get (tx.computeTxId H) = none := by simpa using hn
        refine ⟨fun id k hk => ?_,fun id k hk => ?_,?_⟩
        · rw [OrderedMap.get_insert] at hk
          split at hk
          · next hi =>
            cases hk
            exact ⟨hi.symm,encodable_of_decode (sized_of_estimate (Nat.not_lt.mp he)) hc.2.2, rfl,hc.1⟩
          · exact h.known id k hk
        · rw [OrderedMap.get_insert] at hk
          split at hk
          · cases hk
            exact mem_append_right _ mem_cons_self
          · exact hs.source id k hk
        · have ht := OrderedMap.total_insert (fun _ _ => 1) acc.1.transactions
            (tx.computeTxId H) ⟨tx,tx.toBytes.length⟩
          rw [OrderedMap.total_one,OrderedMap.total_one,hno,Option.elim_none] at ht
          exact ht.symm.le.trans (hl ▸ Nat.succ_le_succ h.count)

lemma Holds.foldl (h : acc.1.Holds H considered) (txs : List Transaction) :
    (txs.foldl (TransactionDictionary.consider H) acc).1.Holds H (considered ++ txs) := by
  induction txs generalizing acc considered with
  | nil =>
    rw [append_nil]
    exact h
  | cons tx rest ih =>
    rw [foldl_cons,append_cons]
    exact ih (h.consider tx)

lemma holds_new (txs : List Transaction) : (TransactionDictionary.new H txs).Holds H
      (txs.take maxKnownTransactions) := by
  have he : ((⟨.empty⟩,0) : TransactionDictionary × Nat).1.Holds H [] :=
    ⟨fun id k hk => by simp at hk,fun id k hk => by simp at hk,Nat.le_refl 0⟩
  exact he.foldl (txs.take maxKnownTransactions)

lemma Holds.get_of_mem {tx : Transaction} (h : d.Holds H considered)
    (hi : tx.computeTxId H ∈ d.ids)
    (hs : ∀ other, other ∈ considered → other.computeTxId H = tx.computeTxId H →
      other = tx) : d.transactions.get (tx.computeTxId H) = some ⟨tx,tx.toBytes.length⟩ := by
  obtain ⟨⟨id,transaction,length⟩,he,hi⟩ := mem_map.mp hi
  obtain rfl : id = tx.computeTxId H := hi
  have hg := OrderedMap.get_eq_some_iff.mpr he
  obtain ⟨ho,_,hl,_⟩ := h.known _ _ hg
  obtain rfl := hs transaction (h.source _ _ hg) ho
  obtain rfl : length = transaction.toBytes.length := hl
  exact hg

lemma Holds.checkKnown (h : d.Holds H considered)
    (hl : considered.length ≤ maxKnownTransactions) : Network.checkKnown d.ids = .ok () := by
  have hs : d.ids.Pairwise (· < ·) := pairwise_map.mpr d.transactions.sorted
  have hc : d.ids.length ≤ maxKnownTransactions := by
    rw [ids,length_map]
    exact h.count.trans hl
  rw [Network.checkKnown,ensure_of hc,ok_bind,ensure_of (ascending_iff.mpr hs)]

end TransactionDictionary

lemma CompactRequest.decode_eq_ok {bs : Bytes} {r : CompactRequest} :
    CompactRequest.decode bs = .ok r ↔ checkKnown r.known = .ok () ∧ bs = r.encode := by
  have hl := (Exact.readFixed 32).counted (by decide : maxKnownTransactions < 256 ^ 2)
    (by decide : 0 < 32) (fun a _ => a.2.ge)
  have hm : requestMagic.length = 8 := by decide
  simp only [CompactRequest.decode,bind_eq_ok,ensure_eq_ok,pure_ok_iff,
    whole_eq_ok,CompactRequest.read,bind_run_ok,pure_run_ok,
    expect_run_ok,readFixed_run_ok,readU64_run_ok,hl _ _ _]
  constructor
  · rintro ⟨_,_,_,⟨_,_,rfl,gen,_,rfl,height,_,rfl,known,_,⟨_,rfl⟩,rfl,rfl⟩,_,hk, rfl⟩
    refine ⟨hk,?_⟩
    rw [append_nil]
    rfl
  · rintro ⟨hk,rfl⟩
    have hc : r.known.length ≤ maxKnownTransactions := by
      obtain ⟨_,hc,_⟩ := bind_eq_ok.mp hk
      exact ensure_eq_ok.mp hc
    have hs : r.encode.length ≤ maxCompactRequestBytes := by
      have hh := length_hashes r.known
      simp only [CompactRequest.encode,length_append,hm,r.sync.genesis.2,u64Bytes_length,
        leBytes_length,hh,maxCompactRequestBytes]
      omega
    exact ⟨(),hs,r,⟨(),_,rfl,r.sync.genesis,_,rfl,r.sync.height,_,rfl,r.known,[],
      ⟨⟨hc,fun _ _ => trivial⟩,(append_nil _).symm⟩,rfl,rfl⟩,(),hk,rfl⟩

variable {c : Suite} {bytes out rest : Bytes} {known : List Hash256}

lemma append_eq_ok {value : Bytes} : append bytes value = .ok out ↔
    (bytes ++ value).length ≤ maxExchangeBytes ∧ out = bytes ++ value := by
  simp only [append,bind_eq_ok,ensure_eq_ok,pure_ok_iff,length_append]
  constructor
  · rintro ⟨_,hf,rfl⟩
    exact ⟨hf,rfl⟩
  · rintro ⟨hf,rfl⟩
    exact ⟨(),hf,rfl⟩

lemma appendBlob_eq_ok {value : Bytes} : appendBlob bytes value = .ok out ↔
    (bytes ++ framed value).length ≤ maxExchangeBytes ∧ out = bytes ++ framed value := by
  simp only [appendBlob,bind_eq_ok,ensure_eq_ok,append_eq_ok,framed]
  constructor
  · rintro ⟨_,_,_,⟨_,rfl⟩,hf,rfl⟩
    rw [append_assoc] at hf ⊢
    exact ⟨hf,rfl⟩
  · rintro ⟨hf,rfl⟩
    have hl : bytes.length + 4 + value.length ≤ maxExchangeBytes := by
      rw [length_append,length_append,leBytes_length] at hf
      omega
    rw [← append_assoc] at hf
    refine ⟨(),?_,_,⟨?_,rfl⟩,hf,(append_assoc ..).symm⟩
    · unfold maxExchangeBytes at hl
      omega
    · rw [length_append,leBytes_length]
      omega

def entryBytes (c : Suite) (known : List Hash256) (tx : Transaction) : Bytes :=
  if tx.computeTxId c.blake2s ∈ known then [0] ++ (tx.computeTxId c.blake2s).1
  else [1] ++ framed tx.toBytes

def bodyBytes (c : Suite) (known : List Hash256) (body : List Transaction) : Bytes :=
  leBytes 2 body.length ++ body.flatMap (entryBytes c known)

lemma five_le_entry (tx : Transaction) : 5 ≤ (entryBytes c known tx).length := by
  unfold entryBytes
  split
  · rw [length_append,(tx.computeTxId c.blake2s).2,length_singleton]
    omega
  · rw [length_append,framed_length,length_singleton]
    omega

lemma appendTransaction_eq_ok : appendTransaction c known bytes tx = .ok out ↔
    True ∧ (bytes ++ entryBytes c known tx).length ≤ maxExchangeBytes ∧
      out = bytes ++ entryBytes c known tx := by
  unfold appendTransaction entryBytes
  split
  · simp only [bind_eq_ok,append_eq_ok]
    constructor
    · rintro ⟨_,⟨_,rfl⟩,hf,rfl⟩
      rw [append_assoc] at hf ⊢
      exact ⟨trivial,hf,rfl⟩
    · rintro ⟨_,hf,rfl⟩
      rw [← append_assoc] at hf ⊢
      refine ⟨_,⟨?_,rfl⟩,hf,rfl⟩
      rw [length_append] at hf
      omega
  · simp only [bind_eq_ok,append_eq_ok,appendBlob_eq_ok]
    constructor
    · rintro ⟨_,⟨_,rfl⟩,hf,rfl⟩
      rw [append_assoc] at hf ⊢
      exact ⟨trivial,hf,rfl⟩
    · rintro ⟨_,hf,rfl⟩
      rw [← append_assoc] at hf ⊢
      refine ⟨_,⟨?_,rfl⟩,hf,rfl⟩
      rw [length_append] at hf
      omega

lemma appendBody_eq_ok {body : List Transaction} : appendBody c known bytes body = .ok out ↔
    body.length < 2 ^ 16 ∧ (bytes ++ bodyBytes c known body).length ≤ maxExchangeBytes ∧
      out = bytes ++ bodyBytes c known body := by
  have hb : bytes ++ leBytes 2 body.length ++ body.flatMap (entryBytes c known) =
      bytes ++ bodyBytes c known body := append_assoc ..
  have hl := @foldlM_appends _ _ (appendTransaction c known) (entryBytes c known) (fun _ => True)
    maxExchangeBytes (fun _ _ _ => appendTransaction_eq_ok) body (bytes ++ leBytes 2 body.length) out
  rw [hb] at hl
  simp only [appendBody,bind_eq_ok,ensure_eq_ok,append_eq_ok]
  constructor
  · rintro ⟨_,hc,_,⟨hs,rfl⟩,h⟩
    obtain ⟨-,hf,rfl⟩ := (hl hs).mp h
    exact ⟨hc,hf,rfl⟩
  · rintro ⟨hc,hf,rfl⟩
    have hs : (bytes ++ leBytes 2 body.length).length ≤ maxExchangeBytes := by
      rw [← hb,length_append] at hf
      omega
    exact ⟨(),hc,_,⟨hs,rfl⟩,(hl hs).mpr ⟨fun _ _ => trivial,hf,rfl⟩⟩

def compactBytes (c : Suite) (known : List Hash256) (skeleton : Bytes) (messages : List NetworkMessage) :
    Bytes :=
  responseMagic ++ (framed skeleton ++ (bodies messages).flatMap (bodyBytes c known))

lemma compactBytes_of_ok {gen : Hash256} (h : encodeCompact c gen msgs known = .ok out) :
    out = compactBytes c known (exchangeBytes gen (msgs.map NetworkMessage.skeleton)) msgs := by
  simp only [encodeCompact,bind_eq_ok,encodeExchange_eq_ok,appendBlob_eq_ok] at h
  obtain ⟨_,⟨_,rfl⟩,_,⟨hs,rfl⟩,h⟩ := h
  obtain ⟨-,-,rfl⟩ := (@foldlM_appends _ _ (appendBody c known) (bodyBytes c known)
    (·.length < 2 ^ 16) maxExchangeBytes (fun _ _ _ => appendBody_eq_ok) (bodies msgs) _ out
    hs).mp h
  rw [compactBytes,append_assoc]

lemma append_failsAs (bytes value : Bytes) : FailsAs .limitExceeded (append bytes value) :=
  FailsAs.ensure.bind fun _ => .ok _

lemma appendBlob_failsAs (bytes value : Bytes) : FailsAs .limitExceeded (appendBlob bytes value) :=
  FailsAs.ensure.bind fun _ => (append_failsAs _ _).bind fun _ => append_failsAs _ _

lemma appendTransaction_failsAs (bytes : Bytes) (tx : Transaction) :
    FailsAs .limitExceeded (appendTransaction c known bytes tx) := by
  unfold appendTransaction
  split
  · exact (append_failsAs _ _).bind fun _ => append_failsAs _ _
  · exact (append_failsAs _ _).bind fun _ => appendBlob_failsAs _ _

lemma appendBody_failsAs (bytes : Bytes) (body : List Transaction) :
    FailsAs .limitExceeded (appendBody c known bytes body) :=
  FailsAs.ensure.bind fun _ => (append_failsAs _ _).bind fun _ =>
    FailsAs.foldlM appendTransaction_failsAs _ _

def bodySize (transactions : List Transaction) : Nat :=
  (transactions.flatMap fun tx => framed tx.toBytes).length

lemma bodySize_cons (tx : Transaction) (rest : List Transaction) :
    bodySize (tx :: rest) = tx.toBytes.length + 4 + bodySize rest := by
  rw [bodySize,flatMap_cons,length_append,framed_length,Nat.add_comm 4]
  rfl

namespace NetworkMessage

variable {m : NetworkMessage} {block other : Block}

lemma block?_withBlock (h : m.block? = some block) : (m.withBlock other).block? = some other := by
  cases m <;> first | cases h; done | rfl

lemma withBlock_withBlock (h : m.block? = some block) :
    (m.withBlock other).withBlock block = m := by
  cases m <;> first | (cases h; rfl) | cases h

lemma Canonical.decodable (h : m.Canonical c) (hb : m.block? = some block) : BlockDecodable block := by
  cases m with
  | proposal =>
    cases hb
    exact h.2.1
  | finalized =>
    cases hb
    exact h.1
  | validValue =>
    cases hb
    exact h.1
  | _ => cases hb

lemma Canonical.withBlock (h : m.Canonical c) (hb : m.block? = some block)
    (ho : BlockDecodable other) : (m.withBlock other).Canonical c := by
  cases m with
  | proposal => exact ⟨h.1,ho,h.2.2⟩
  | finalized => exact ⟨ho,h.2⟩
  | validValue => exact ⟨ho,h.2⟩
  | _ => cases hb

lemma raw_withBlock (hb : m.block? = some block) :
    (m.withBlock other).raw.length + bodySize block.transactions =
      m.raw.length + bodySize other.transactions := by
  have hs := blockBytes_length block
  have ho := blockBytes_length other
  unfold bodySize
  cases m with
  | proposal | finalized | validValue =>
    cases hb
    simp only [NetworkMessage.withBlock,raw,length_append,framed_length]
    omega
  | _ => cases hb

end NetworkMessage

lemma blockDecodable_empty (block : Block) :
    BlockDecodable { block with transactions := [] } := by
  refine ⟨⟨Nat.zero_le _,forall_mem_nil _,?_⟩,forall_mem_nil _⟩
  rw [blockBytes_length]
  exact (by decide : 208 ≤ maxBlockBytes)

variable {d : TransactionDictionary} {genesis : Hash256}

variable {charged : Sizes} {txs : List Transaction}

lemma charge_eq_ok {length : Nat} : charge sizes length = .ok charged ↔
    (sizes.block + (length + 4) ≤ maxBlockBytes ∧ sizes.exchange + (length + 4) ≤ maxExchangeBytes) ∧
      charged = ⟨sizes.block + (length + 4),sizes.exchange + (length + 4)⟩ := by
  simp only [charge,bind_eq_ok,ensure_eq_ok,pure_ok_iff]
  constructor
  · rintro ⟨_,hf,rfl⟩
    exact ⟨hf,rfl⟩
  · rintro ⟨hf,rfl⟩
    exact ⟨(),hf,rfl⟩

def Sendable (tx : Transaction) : Prop := tx.Encodable ∧ tx.toBytes.length ≤ maxTransactionBytes

lemma readTransaction_sound (hd : d.Holds c.blake2s considered)
    (h : (readTransaction d sizes).run bytes = .ok ((tx,charged),rest)) :
    Sendable tx ∧ charge sizes tx.toBytes.length = .ok charged := by
  obtain ⟨tag,middle,_,h⟩ := bind_run_ok.mp h
  split_ifs at h
  · simp only [bind_run_ok,pure_run_ok,give_run_ok,okOr_eq_ok,Prod.mk.injEq] at h
    obtain ⟨id,_,_,known,_,⟨hk,_⟩,_,_,⟨hc,_⟩,⟨rfl,rfl⟩,_⟩ := h
    obtain ⟨_,he,hl,hs⟩ := hd.known id known hk
    exact ⟨⟨he,hs⟩,hl ▸ hc⟩
  · simp only [bind_run_ok,pure_run_ok,give_run_ok,check_run_ok,
      readExact_run_ok,Transaction.decode_eq_ok,Prod.mk.injEq] at h
    obtain ⟨length,_,_,_,_,⟨hs,_⟩,_,_,⟨hc,_⟩,_,_,⟨hl,_⟩,_,_, ⟨⟨he,rfl⟩,_⟩,⟨rfl,rfl⟩,_⟩ := h
    exact ⟨⟨he,hl ▸ hs⟩,hl ▸ hc⟩
  · cases (give_run_ok.mp h).1

lemma readTransactions_sound {left : Nat}
    (hd : d.Holds c.blake2s considered)
    (h : (readTransactions d left sizes).run bytes = .ok ((txs,exchange),rest))
    (hb : sizes.block ≤ maxBlockBytes) (he : sizes.exchange ≤ maxExchangeBytes) :
    txs.length = left ∧ (∀ tx ∈ txs, Sendable tx) ∧ exchange = sizes.exchange + bodySize txs ∧
      sizes.block + bodySize txs ≤ maxBlockBytes ∧ exchange ≤ maxExchangeBytes := by
  induction left generalizing sizes txs bytes with
  | zero =>
    obtain ⟨hp,_⟩ := pure_run_ok.mp h
    cases hp
    exact ⟨rfl,forall_mem_nil _,rfl,hb,he⟩
  | succ left ih =>
    simp only [readTransactions,bind_run_ok,pure_run_ok,Prod.exists,Prod.mk.injEq] at h
    obtain ⟨tx,charged,_,hf,others,last,_,hr,⟨rfl,rfl⟩,rfl⟩ := h
    obtain ⟨ht,hc⟩ := readTransaction_sound hd hf
    obtain ⟨⟨hfi,hro⟩,rfl⟩ := charge_eq_ok.mp hc
    obtain ⟨hle,ha,rfl,hs,hl⟩ := ih hr hfi hro
    rw [bodySize_cons,length_cons]
    exact ⟨by rw [hle],forall_mem_cons.mpr ⟨ht,ha⟩,Nat.add_assoc .., (Nat.add_assoc ..).ge.trans hs,hl⟩

lemma fillBlock_sound {last : Nat} {block filled : Block} (hd : d.Holds c.blake2s considered)
    (h : (fillBlock d exchange block).run bytes = .ok ((filled,last),rest))
    (hex : exchange ≤ maxExchangeBytes) :
    block.transactions = [] ∧ BlockDecodable filled ∧ last = exchange + bodySize filled.transactions ∧
      last ≤ maxExchangeBytes := by
  simp only [fillBlock,bind_run_ok,pure_run_ok,check_run_ok,give_run_ok,
    Prod.exists,Prod.mk.injEq,encodeBlock_eq_ok] at h
  obtain ⟨_,_,⟨he,_⟩,left,_,_,_,_,_,_,_,⟨⟨hc,_⟩,_⟩,_,_,⟨⟨hf,rfl⟩,_⟩,
    transactions,_,_,hr,⟨rfl,rfl⟩,_⟩ := h
  obtain ⟨hle,ha,hl,hs,hro⟩ := readTransactions_sound hd hr hf.size hex
  have he' := blockBytes_length block
  rw [he,flatMap_nil,length_nil] at he'
  refine ⟨he,⟨⟨?_,fun tx ht => (ha tx ht).2,?_⟩,fun tx ht => (ha tx ht).1⟩,hl,hro⟩
  · exact hle ▸ hc
  · rw [blockBytes_length]
    exact le_of_eq_of_le (by rw [he']; rfl) hs

lemma fillMessage_sound {last : Nat} {m filled : NetworkMessage} (hd : d.Holds c.blake2s considered)
    (h : (fillMessage d exchange m).run bytes = .ok ((filled,last),rest)) (hm : m.Canonical c)
    (hex : exchange ≤ maxExchangeBytes) :
    filled.Canonical c ∧ exchange + filled.raw.length = last + m.raw.length ∧
      last ≤ maxExchangeBytes := by
  unfold fillMessage at h
  split at h
  · next block hb =>
    simp only [bind_run_ok,pure_run_ok,Prod.exists,Prod.mk.injEq] at h
    obtain ⟨full,_,_,hf,⟨rfl,rfl⟩,_⟩ := h
    obtain ⟨he,hfu,rfl,hro⟩ := fillBlock_sound hd hf hex
    have hr : (m.withBlock full).raw.length + _ = _ := NetworkMessage.raw_withBlock hb
    rw [he] at hr
    refine ⟨hm.withBlock hb hfu,?_,hro⟩
    have hn : bodySize [] = 0 := rfl
    omega
  · obtain ⟨hp,_⟩ := pure_run_ok.mp h
    cases hp
    exact ⟨hm,rfl,hex⟩

lemma fillMessages_sound {filled : List NetworkMessage} (hd : d.Holds c.blake2s considered)
    (h : (fillMessages d exchange msgs).run bytes = .ok (filled,rest))
    (hm : ∀ m ∈ msgs, m.Canonical c) (he : exchange ≤ maxExchangeBytes) :
    filled.length = msgs.length ∧ (∀ m ∈ filled, m.Canonical c) ∧
      exchange + (filled.flatMap NetworkMessage.raw).length ≤
        maxExchangeBytes + (msgs.flatMap NetworkMessage.raw).length := by
  induction msgs generalizing exchange filled bytes with
  | nil =>
    obtain ⟨rfl,_⟩ := pure_run_ok.mp h
    exact ⟨rfl,forall_mem_nil _,he⟩
  | cons m others ih =>
    simp only [fillMessages,bind_run_ok,pure_run_ok,Prod.exists] at h
    obtain ⟨first,last,_,hf,remaining,_,hr,rfl,rfl⟩ := h
    obtain ⟨hm,ho⟩ := forall_mem_cons.mp hm
    obtain ⟨hc,hs,hro⟩ := fillMessage_sound hd hf hm he
    obtain ⟨hl,ha,ht⟩ := ih hr ho hro
    rw [flatMap_cons,flatMap_cons,length_append,length_append]
    refine ⟨by rw [length_cons,length_cons,hl],forall_mem_cons.mpr ⟨hc,ha⟩,?_⟩
    omega

lemma decodeResponse_sound (hd : d.Holds c.blake2s considered)
    (h : decodeResponse c genesis bytes d = .ok msgs) :
    msgs.length ≤ maxMessages ∧ (∀ m ∈ msgs, m.Canonical c) ∧
      (exchangeBytes genesis msgs).length ≤ maxExchangeBytes := by
  unfold decodeResponse at h
  split at h
  · exact (decodeExchange_eq_ok.mp h).1
  · simp only [bind_eq_ok,whole_eq_ok,readResponse,bind_run_ok,
      readFramed_run_ok,give_run_ok,decodeExchange_eq_ok] at h
    obtain ⟨_,_,_,_,_,_,_,_,skeleton,_,⟨⟨⟨hco,ha,hfi⟩,rfl⟩,_⟩,hf⟩ := h
    obtain ⟨hl,hc,hs⟩ := fillMessages_sound hd hf ha hfi
    refine ⟨hl ▸ hco,hc,?_⟩
    rw [exchangeBytes_length] at hs ⊢
    omega

def Answers (c : Suite) (d : TransactionDictionary) (known : List Hash256) (tx : Transaction) : Prop :=
  tx.computeTxId c.blake2s ∈ known →
    d.transactions.get (tx.computeTxId c.blake2s) = some ⟨tx, tx.toBytes.length⟩

lemma run_readTransaction (ht : Sendable tx) (ha : Answers c d known tx)
    (hf : sizes.block + (tx.toBytes.length + 4) ≤ maxBlockBytes ∧
      sizes.exchange + (tx.toBytes.length + 4) ≤ maxExchangeBytes) :
    (readTransaction d sizes).run (entryBytes c known tx ++ rest) =
      .ok ((tx,⟨sizes.block + (tx.toBytes.length + 4),sizes.exchange + (tx.toBytes.length + 4)⟩),rest) := by
  have hc := charge_eq_ok.mpr ⟨hf,rfl⟩
  unfold entryBytes
  split
  · next hm =>
    refine bind_run_ok.mpr ⟨0,_,readU8_run_ok.mpr (append_assoc ..),?_⟩
    rw [if_pos rfl]
    simp only [bind_run_ok,pure_run_ok,give_run_ok,okOr_eq_ok,readFixed_run_ok]
    exact ⟨_,_,rfl,⟨tx,_⟩,_,⟨ha hm,rfl⟩,_,_,⟨hc,rfl⟩,rfl,rfl⟩
  · refine bind_run_ok.mpr ⟨1,_,readU8_run_ok.mpr (append_assoc ..),?_⟩
    rw [if_neg (by decide),if_pos rfl]
    simp only [bind_run_ok,pure_run_ok,give_run_ok,check_run_ok,
      readDigits_run_ok,readExact_run_ok,Transaction.decode_eq_ok,framed,
      append_assoc]
    have hd : tx.toBytes.length < 256 ^ 4 := Nat.lt_of_le_of_lt ht.2 (by decide)
    exact ⟨_,_,⟨hd,rfl⟩,(),_,⟨ht.2,rfl⟩,_,_,⟨hc,rfl⟩,_,_,⟨rfl,rfl⟩,tx,_, ⟨⟨ht.1,rfl⟩,rfl⟩,rfl,rfl⟩

lemma run_readTransactions (ht : ∀ tx ∈ txs, Sendable tx) (han : ∀ tx ∈ txs, Answers c d known tx)
    (hfi : sizes.block + bodySize txs ≤ maxBlockBytes ∧
      sizes.exchange + bodySize txs ≤ maxExchangeBytes) :
    (readTransactions d txs.length sizes).run (txs.flatMap (entryBytes c known) ++ rest) =
        .ok ((txs,sizes.exchange + bodySize txs),rest) := by
  induction txs generalizing sizes with
  | nil => rfl
  | cons tx others ih =>
    obtain ⟨hf,ho⟩ := forall_mem_cons.mp ht
    obtain ⟨ha,han⟩ := forall_mem_cons.mp han
    rw [bodySize_cons] at hfi ⊢
    rw [flatMap_cons,append_assoc]
    have hr := @ih ⟨sizes.block + (tx.toBytes.length + 4),sizes.exchange + (tx.toBytes.length + 4)⟩
      ho han ⟨by simp only; omega,by simp only; omega⟩
    simp only [readTransactions,length_cons,bind_run_ok,pure_run_ok,Prod.exists]
    refine ⟨tx,_,_,run_readTransaction hf ha ⟨by omega,by omega⟩,others,_,_,hr,?_,rfl⟩
    simp only [Nat.add_assoc]

lemma run_fillBlock {block : Block} (hb : BlockDecodable block)
    (ha : ∀ tx ∈ block.transactions, Answers c d known tx)
    (hr : exchange + bodySize block.transactions ≤ maxExchangeBytes) :
    (fillBlock d exchange { block with transactions := [] }).run
      (bodyBytes c known block.transactions ++ rest) =
        .ok ((block,exchange + bodySize block.transactions),rest) := by
  have hc := hb.1.count
  have hl : block.transactions.length ≤
      (block.transactions.flatMap (entryBytes c known) ++ rest).length / 5 := by
    have hlo := Exact.le_length_flatMap fun tx (_ : tx ∈ block.transactions) =>
      @five_le_entry c known tx
    rw [Nat.le_div_iff_mul_le (by decide),length_append]
    omega
  have he : (blockBytes { block with transactions := [] }).length = 208 := blockBytes_length _
  have hs : 208 + bodySize block.transactions ≤ maxBlockBytes := blockBytes_length block ▸ hb.1.size
  simp only [fillBlock,bodyBytes,append_assoc,bind_run_ok,pure_run_ok,
    check_run_ok,give_run_ok,readDigits_run_ok,remaining_run_ok,
    Prod.exists,encodeBlock_eq_ok]
  refine ⟨(),_,⟨trivial,rfl⟩,_,_,⟨Nat.lt_of_le_of_lt hc (by decide),rfl⟩,_,_,⟨rfl,rfl⟩,(),_,
    ⟨⟨hc,hl⟩,rfl⟩,_,_,⟨⟨(blockDecodable_empty block).1,rfl⟩,rfl⟩,block.transactions,_,_,
    run_readTransactions (fun tx ht => ⟨hb.2 tx ht,hb.1.transactions tx ht⟩) ha
      ⟨he.symm ▸ hs,hr⟩,rfl,rfl⟩

namespace NetworkMessage

def transactions (m : NetworkMessage) : List Transaction := (m.block?.map (·.transactions)).getD []

def body (c : Suite) (known : List Hash256) (m : NetworkMessage) : Bytes :=
  (m.block?.map fun block => bodyBytes c known block.transactions).getD []

lemma raw_skeleton (m : NetworkMessage) :
    m.skeleton.raw.length + bodySize m.transactions = m.raw.length := by
  unfold skeleton transactions
  cases hb : m.block? with
  | none => rfl
  | some block =>
    exact raw_withBlock hb

lemma Canonical.skeleton {m : NetworkMessage} (h : m.Canonical c) : m.skeleton.Canonical c := by
  unfold NetworkMessage.skeleton
  split
  · next block hb => exact h.withBlock hb (blockDecodable_empty block)
  · exact h

end NetworkMessage

lemma run_fillMessage {m : NetworkMessage} (hm : m.Canonical c)
    (ha : ∀ tx ∈ m.transactions, Answers c d known tx)
    (hr : exchange + bodySize m.transactions ≤ maxExchangeBytes) :
    (fillMessage d exchange m.skeleton).run (m.body c known ++ rest) =
      .ok ((m,exchange + bodySize m.transactions),rest) := by
  unfold NetworkMessage.transactions at ha hr ⊢
  unfold fillMessage NetworkMessage.skeleton NetworkMessage.body
  cases hb : m.block? with
  | none =>
    simp only [hb]
    rfl
  | some block =>
    rw [hb] at ha hr
    simp only [NetworkMessage.block?_withBlock hb]
    simp only [bind_run_ok,pure_run_ok,Prod.exists]
    refine ⟨block,_,_,run_fillBlock (hm.decodable hb) ha hr,?_,rfl⟩
    rw [NetworkMessage.withBlock_withBlock hb]
    rfl

lemma skeletons_le (msgs : List NetworkMessage) :
    ((msgs.map NetworkMessage.skeleton).flatMap NetworkMessage.raw).length ≤
      (msgs.flatMap NetworkMessage.raw).length := by
  induction msgs with
  | nil => exact Nat.le_refl 0
  | cons m others ih =>
    have hm := m.raw_skeleton
    rw [map_cons,flatMap_cons,flatMap_cons,length_append,length_append]
    omega

lemma run_fillMessages (hm : ∀ m ∈ msgs, m.Canonical c)
    (han : ∀ m ∈ msgs, ∀ tx ∈ m.transactions, Answers c d known tx)
    (hro : exchange + (msgs.flatMap NetworkMessage.raw).length ≤
      maxExchangeBytes + ((msgs.map NetworkMessage.skeleton).flatMap NetworkMessage.raw).length) :
    (fillMessages d exchange (msgs.map NetworkMessage.skeleton)).run
      (msgs.flatMap (NetworkMessage.body c known) ++ rest) = .ok (msgs,rest) := by
  induction msgs generalizing exchange with
  | nil => rfl
  | cons m others ih =>
    obtain ⟨hf,ho⟩ := forall_mem_cons.mp hm
    obtain ⟨ha,han⟩ := forall_mem_cons.mp han
    have hr := m.raw_skeleton
    have hs := skeletons_le others
    rw [map_cons,flatMap_cons,flatMap_cons,length_append,length_append] at hro
    rw [map_cons,flatMap_cons,append_assoc]
    simp only [fillMessages,bind_run_ok,pure_run_ok,Prod.exists]
    exact ⟨m,_,_,run_fillMessage hf ha (by omega),others,rest,ih ho han (by omega),rfl,rfl⟩

lemma bodies_flatMap (msgs : List NetworkMessage) :
    (bodies msgs).flatMap (bodyBytes c known) = msgs.flatMap (NetworkMessage.body c known) := by
  induction msgs with
  | nil => rfl
  | cons m others ih =>
    rw [flatMap_cons,← ih,bodies,bodies,filterMap_cons,NetworkMessage.body]
    cases m.block? <;> rfl

lemma decodeResponse_compact (hm : msgs.length ≤ maxMessages ∧ (∀ m ∈ msgs, m.Canonical c) ∧
      (exchangeBytes genesis msgs).length ≤ maxExchangeBytes)
    (han : ∀ m ∈ msgs, ∀ tx ∈ m.transactions, Answers c d known tx)
    (hsi : (compactBytes c known (exchangeBytes genesis (msgs.map NetworkMessage.skeleton))
      msgs).length ≤ maxExchangeBytes) :
    decodeResponse c genesis
      (compactBytes c known (exchangeBytes genesis (msgs.map NetworkMessage.skeleton)) msgs) d =
        .ok msgs := by
  obtain ⟨hco,ha,hfi⟩ := hm
  have hma : ∀ tail : Bytes, (responseMagic ++ tail).take 8 ≠ exchangeMagic := by
    intro tail
    rw [take_left' (by decide : responseMagic.length = 8)]
    decide
  have hp := exchangeBytes_length genesis msgs
  have hsk := exchangeBytes_length genesis (msgs.map NetworkMessage.skeleton)
  have hs := skeletons_le msgs
  have hc : ∀ m ∈ msgs.map NetworkMessage.skeleton, m.Canonical c := by
    intro m hm
    obtain ⟨full,hfu,rfl⟩ := mem_map.mp hm
    exact (ha full hfu).skeleton
  have hr : (exchangeBytes genesis (msgs.map NetworkMessage.skeleton)).length ≤
      maxExchangeBytes := by omega
  have hf : (fillMessages d _ (msgs.map NetworkMessage.skeleton)).run
      (msgs.flatMap (NetworkMessage.body c known) ++ []) = .ok (msgs,[]) :=
    run_fillMessages ha han
      (by omega : (exchangeBytes genesis (msgs.map NetworkMessage.skeleton)).length + _ ≤ _)
  unfold decodeResponse
  rw [compactBytes,if_neg (hma _)]
  rw [compactBytes] at hsi
  simp only [ensure_of hsi,ok_bind,whole_eq_ok,readResponse,bind_run_ok,
    expect_run_ok,readFramed_run_ok,give_run_ok,decodeExchange_eq_ok]
  refine ⟨(),_,rfl,_,_,⟨⟨hr,Nat.lt_of_le_of_lt hr (by decide)⟩,rfl⟩,
    msgs.map NetworkMessage.skeleton,_,⟨⟨⟨?_,hc,hr⟩,rfl⟩,rfl⟩,?_⟩
  · rw [length_map]
    exact hco
  · rw [bodies_flatMap,← append_nil (msgs.flatMap _)]
    exact hf

/-- What an encoder returns: the plain bytes, or the compact ones if they are fewer. -/
lemma encodeResponse_cases {legacy : Bytes} (hk : checkKnown known = .ok ())
    (hl : encodeExchange c genesis msgs = .ok legacy)
    (hsk : ∃ bs, encodeExchange c genesis (msgs.map NetworkMessage.skeleton) = .ok bs) :
    encodeResponse c genesis msgs known = .ok legacy ∨
      ∃ compact, encodeCompact c genesis msgs known = .ok compact ∧ compact.length < legacy.length ∧
        encodeResponse c genesis msgs known = .ok compact := by
  obtain ⟨skeleton,hsk⟩ := hsk
  have hf : FailsAs .limitExceeded (encodeCompact c genesis msgs known) := by
    rw [encodeCompact,hsk,ok_bind]
    exact (appendBlob_failsAs _ _).bind fun _ => FailsAs.foldlM appendBody_failsAs _ _
  rw [encodeResponse,hk,ok_bind,hl,ok_bind]
  split
  · exact .inl rfl
  · cases hc : encodeCompact c genesis msgs known with
    | error e =>
      obtain rfl := hf e hc
      exact .inl rfl
    | ok compact =>
      by_cases hs : compact.length < legacy.length
      · exact .inr ⟨compact,rfl,hs,if_pos hs⟩
      · exact .inl (if_neg hs)

/-- The compact transport gives back what the plain one does, in no more bytes, and lets nothing in
that the plain one would not. The identifiers need only tell apart the transactions at hand. -/
theorem compact_transport_transparent (c : Suite) (genesis : Hash256) (transactions : List Transaction) :
    (∀ sync, CompactRequest.decode (CompactRequest.new sync
        (TransactionDictionary.new c.blake2s transactions)).encode =
      .ok (CompactRequest.new sync (TransactionDictionary.new c.blake2s transactions))) ∧
    (∀ messages legacy, encodeExchange c genesis messages = .ok legacy →
      decodeExchange c genesis legacy = .ok messages →
      Set.InjOn (Transaction.computeTxId c.blake2s)
        {tx | tx ∈ transactions ∨ ∃ m ∈ messages, tx ∈ m.transactions} →
      ∃ response, encodeResponse c genesis messages
          (TransactionDictionary.new c.blake2s transactions).ids = .ok response ∧
        response.length ≤ legacy.length ∧
        decodeResponse c genesis response (TransactionDictionary.new c.blake2s transactions) =
          .ok messages) ∧
    ∀ bytes messages,
      decodeResponse c genesis bytes (TransactionDictionary.new c.blake2s transactions) = .ok messages →
      ∃ plain, encodeExchange c genesis messages = .ok plain := by
  have hh := @TransactionDictionary.holds_new c.blake2s transactions
  have hli : (transactions.take maxKnownTransactions).length ≤ maxKnownTransactions := by
    rw [length_take]
    exact Nat.min_le_left ..
  have hk := hh.checkKnown hli
  refine ⟨fun sync => CompactRequest.decode_eq_ok.mpr ⟨hk,rfl⟩,
    fun messages legacy hl hd hin => ?_,fun bytes messages h => ?_⟩
  · obtain ⟨hm,rfl⟩ := decodeExchange_eq_ok.mp hd
    have han : ∀ m ∈ messages, ∀ tx ∈ m.transactions, Answers c
        (TransactionDictionary.new c.blake2s transactions)
        (TransactionDictionary.new c.blake2s transactions).ids tx :=
      fun m hme tx ht hi => hh.get_of_mem hi fun known hso hs =>
        hin (.inl (mem_of_mem_take hso)) (.inr ⟨m,hme,ht⟩) hs
    have hsk : ∃ bytes, encodeExchange c genesis (messages.map NetworkMessage.skeleton) =
        .ok bytes := by
      have hshr := skeletons_le messages
      have hp := exchangeBytes_length genesis messages
      have hle := exchangeBytes_length genesis (messages.map NetworkMessage.skeleton)
      refine ⟨_,encodeExchange_eq_ok.mpr ⟨⟨(length_map _).trans_le hm.1,fun m hme => ?_,
        by have := hm.2.2; omega⟩,rfl⟩⟩
      obtain ⟨full,hfu,rfl⟩ := mem_map.mp hme
      exact (hm.2.1 full hfu).skeleton.encodable
    rcases encodeResponse_cases hk hl hsk with hp | ⟨compact,hc,hsh,he⟩
    · refine ⟨_,hp,Nat.le_refl _,?_⟩
      rw [decodeResponse,if_pos]
      · exact hd
      · exact take_left' (by decide)
    · obtain rfl := compactBytes_of_ok hc
      exact ⟨_,he,hsh.le,decodeResponse_compact hm han (hsh.le.trans hm.2.2)⟩
  · obtain ⟨hco,ha,hf⟩ := decodeResponse_sound hh h
    exact ⟨_,encodeExchange_eq_ok.mpr ⟨⟨hco,fun m hm => (ha m hm).encodable,hf⟩,rfl⟩⟩

open Sample in
/-- The asker holds the one transaction of the block it is sent. -/
theorem compact_transport_transparent_known : ∃ response,
    encodeResponse TwoSteps.suite Hash256.zero [.validValue filled []]
        (TransactionDictionary.new TwoSteps.suite.blake2s [transaction]).ids = .ok response ∧
      response.length ≤ (exchangeBytes Hash256.zero [.validValue filled []]).length ∧
      decodeResponse TwoSteps.suite Hash256.zero response
        (TransactionDictionary.new TwoSteps.suite.blake2s [transaction]) =
          .ok [.validValue filled []] := by
  have hc : (NetworkMessage.validValue filled []).Canonical TwoSteps.suite :=
    ⟨filled_decodable,Nat.zero_le _⟩
  have hs : (exchangeBytes Hash256.zero [.validValue filled []]).length ≤ maxExchangeBytes := by
    decide +kernel
  refine (compact_transport_transparent TwoSteps.suite Hash256.zero [transaction]).2.1
    [.validValue filled []] _
    (encodeExchange_eq_ok.mpr ⟨⟨by decide,forall_mem_singleton.mpr hc.encodable,hs⟩,rfl⟩)
    (decodeExchange_eq_ok.mpr ⟨⟨by decide,forall_mem_singleton.mpr hc,hs⟩,rfl⟩)
    (Set.Subsingleton.injOn (fun a ha b hb => ?_) _)
  have ho : ∀ tx, (tx ∈ [transaction] ∨
      ∃ m ∈ [NetworkMessage.validValue filled []], tx ∈ m.transactions) → tx = transaction := by
    rintro tx (h | ⟨m,hm,h⟩)
    · exact mem_singleton.mp h
    · obtain rfl := mem_singleton.mp hm
      exact mem_singleton.mp h
  rw [ho a ha,ho b hb]

end Astrolune.Network
