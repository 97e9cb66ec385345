import Astrolune.Consensus.Handoff
import Astrolune.Execution.Signed

namespace Astrolune

/-- The demonstration validator. It authenticates nothing. -/
structure BasicValidator where
  accounts : Lib.OrderedMap Address AccountState

namespace BasicValidator
open Lib Codec

def validate (H : Hasher) (v : BasicValidator) (tx : Transaction)
    (context : ValidationContext) : Except TransactionError ValidatedTransaction := do
  validateShape tx context.maxTransactionBytes
  ensure .wrongChain (tx.chainId = context.chainId)
  ensure .expired (¬tx.expiresAt < context.nextHeight)
  ensure .invalidNonce (tx.nonce.toNat ≠ 2 ^ 64 - 1)
  match v.accounts.get tx.sender with
  | none => ensure .invalidNonce (tx.nonce = 0)
  | some account =>
    ensure .invalidNonce (tx.nonce = account.nonce)
    let cost ← okOr .insufficientResources (tx.resourceLimit.checkedCost tx.resourcePrices)
    ensure .insufficientResources (cost ≤ account.balance)
  ensure .invalidSignature (tx.signature.1 ≠ List.replicate 64 0)
  return ⟨tx.computeTxId H, tx.lane, tx⟩

def advanceNonce (v : BasicValidator) (address : Address) : Except TransactionError BasicValidator :=
  match v.accounts.get address with
  | none => .ok v
  | some account => do
    let nonce ← okOr .invalidNonce (Resources.checkedAddU64 account.nonce 1)
    return ⟨v.accounts.insert address { account with nonce }⟩

end BasicValidator
end Astrolune

namespace Astrolune.Node
open Lib Codec Crypto State Execution Consensus List

structure PoolEntry where
  id : Hash256
  transaction : Transaction
  priority : UInt64
  sequence : UInt64

inductive MempoolError where
  | duplicate
  | conflictingNonce
  | capacityExceeded
  deriving DecidableEq

structure Mempool where
  maxTransactions : Nat
  maxBytes : Nat
  entries : List (PoolEntry × Nat)
  ids : List Hash256
  bytes : Nat

def Mempool.insert (m : Mempool) (entry : PoolEntry) (encodedLen : Nat) : Except MempoolError Mempool := do
  ensure .capacityExceeded (encodedLen ≤ m.maxBytes)
  ensure .duplicate (entry.id ∉ m.ids)
  ensure .conflictingNonce (∀ e ∈ m.entries, ¬(e.1.transaction.sender = entry.transaction.sender ∧
    e.1.transaction.nonce = entry.transaction.nonce))
  let bytes ← okOr .capacityExceeded (checkedAdd64 m.bytes encodedLen)
  ensure .capacityExceeded (m.entries.length ≠ m.maxTransactions ∧ bytes ≤ m.maxBytes)
  return { m with bytes, ids := entry.id :: m.ids, entries := (entry, encodedLen) :: m.entries }

/-- `validation` is `Assembly` with the text of the error. -/
inductive ProducerError where
  | consensus (e : ConsensusError)
  | execution (e : ExecutionError)
  | mempool (e : MempoolError)
  | validation (e : TransactionError)
  | assembly (message : String)
  deriving DecidableEq

structure ProducerConfig where
  chainId : UInt32
  maxBlockTransactions : Nat
  maxTransactionBytes : Nat
  blockCapacity : Resources

structure BlockProducer where
  config : ProducerConfig
  state : InMemoryState
  height : UInt64
  accountExecution : Bool
  rotation : Option CommitteeState
  potb : Option PotbVerifier
  mempool : Mempool
  validator : BasicValidator
  admissionSequence : UInt64

def remaining (capacity used : Resources) : Except ProducerError Resources := do
  ensure (.execution .resourceLimit) (used.fitsIn capacity)
  return ⟨capacity.compute - used.compute, capacity.memory - used.memory, capacity.io - used.io,
    capacity.bandwidth - used.bandwidth⟩

def systemResources (current : CommitteeState) : Resources :=
  ⟨UInt64.ofNat (10000 * current.roster.length), 16 * 1024, 4096, 12 * 1024⟩

def encodedBound (s : PotbState) : Nat :=
  if s.governance.isSome then PotbState.maxBytes else PotbState.legacyMaxBytes

def minimumResources (s : PotbState) : Resources :=
  let count := s.committee.roster.length
  let bytes := 23 + 280 * count
  ⟨UInt64.ofNat (10000 * count), UInt64.ofNat (16 * 1024 + encodedBound s + bytes),
    UInt64.ofNat (encodedBound s), UInt64.ofNat (bytes + 512)⟩

namespace BlockProducer

variable (b : Backend) (p : BlockProducer)

def ensureRotationProfile : Except ProducerError Unit := do
  ensure (.assembly "persisted PoTB state requires authenticated PoTB recovery")
    (p.potb.isSome ∨ p.state.get potbStateKey = none)
  ensure (.assembly "persisted rotating state requires authenticated rotation recovery")
    (p.rotation.isSome ∨ p.state.get committeeStateKey = none ∧
      p.state.get (ascii "astrolune/consensus/profile/v2") = none)

def admissionCapacity : Except ProducerError Resources :=
  match p.potb, p.rotation with
  | some trusted, _ => do
    ensure (.execution .resourceLimit) (1 < p.config.maxBlockTransactions)
    remaining p.config.blockCapacity (minimumResources trusted.current)
  | none, some current => do
    ensure (.execution .resourceLimit) (1 < p.config.maxBlockTransactions)
    remaining p.config.blockCapacity (systemResources current)
  | none, none => .ok p.config.blockCapacity

def currentPrices : Resources :=
  match p.potb.bind fun trusted => trusted.current.governance with
  | some governance => governance.active.prices
  | none => { Resources.zero with compute := 1 }

def contractsEnabled : Bool :=
  p.state.get runtimeKey = some (u32Bytes 2) ∨ p.state.get runtimeKey = some (u32Bytes 3)

def validationContext : ValidationContext := ⟨p.config.chainId, p.height, p.config.maxTransactionBytes⟩

/-- One validation against the state. `faults` is what it finds of the native runtime. -/
def check (capacity : Resources) (faults : NativeFaults) (tx : Transaction) :
    Except ProducerError Hash256 := do
  let session := SignedSession.new fun key => .ok (p.state.get key)
  let (output, _) ← (session.execute b
    ⟨p.validationContext, capacity, p.contractsEnabled, p.currentPrices⟩ faults tx).mapError .execution
  return output.receipt.transaction

def admitValidated (tx : Transaction) (id : Hash256) : Except ProducerError Hash256 × BlockProducer :=
  match Resources.checkedAddU64 p.admissionSequence 1 with
  | none => (.error (.assembly "admission sequence exhausted"), p)
  | some next =>
    match p.mempool.insert ⟨id, tx, 0, p.admissionSequence⟩ tx.estimateEncodedLen with
    | .error e => (.error (.mempool e), p)
    | .ok mempool =>
      if p.accountExecution then (.ok id, { p with mempool, admissionSequence := next })
      else
        match p.validator.advanceNonce tx.sender with
        | .error e => (.error (.validation e), { p with mempool })
        | .ok validator => (.ok id, { p with mempool, validator, admissionSequence := next })

def admitChecked (tx : Transaction) : Except ProducerError Hash256 → Except ProducerError Hash256 × BlockProducer
  | .error e => (.error e, p)
  | .ok id => p.admitValidated tx id

def submitTransaction (faults : NativeFaults) (tx : Transaction) :
    Except ProducerError Hash256 × BlockProducer :=
  p.admitChecked tx do
    p.ensureRotationProfile
    if p.accountExecution then
      let capacity ← p.admissionCapacity
      p.check b capacity faults tx
    else
      let validated ← (p.validator.validate b.crypto.blake2s tx p.validationContext).mapError .validation
      return validated.id

def each {α : Type} (call : BlockProducer → α → Except ProducerError Hash256 × BlockProducer) :
    BlockProducer → List α → List (Except ProducerError Hash256) × BlockProducer
  | p, [] => ([], p)
  | p, a :: rest =>
    let after := each call (call p a).2 rest
    ((call p a).1 :: after.1, after.2)

/-- The transactions, each with what its validation finds of the native runtime. -/
def attempts (faults : Nat → NativeFaults) (transactions : List Transaction) :
    List (Transaction × NativeFaults) := transactions.zipIdx.map fun e => (e.1, faults e.2)

def submitEach (faults : Nat → NativeFaults) (transactions : List Transaction) :
    List (Except ProducerError Hash256) × BlockProducer :=
  p.each (fun p e => p.submitTransaction b e.2 e.1) (attempts faults transactions)

/-- The threads of one batch: how many, in what order they make their steps, and whether one could
not be started or joined. -/
structure Threads where
  workers : Nat
  positive : 0 < workers
  schedule : List Nat
  failed : Bool

structure Worker (α : Type) where
  todo : List α
  results : List (Except ProducerError Hash256)

section Batch

variable {α : Type} (verify : α → Except ProducerError Hash256)

def Worker.advance (w : Worker α) : Worker α :=
  match w.todo with
  | [] => w
  | a :: rest => ⟨rest, w.results ++ [verify a]⟩

def Worker.join (w : Worker α) : List (Except ProducerError Hash256) := w.results ++ w.todo.map verify

def chunks (size : Nat) : Nat → List α → List (List α)
  | 0, _ => []
  | count + 1, l => l.take size :: chunks size count (l.drop size)

def validation (threads : Threads) (attempts : List α) : List (Except ProducerError Hash256) :=
  if threads.failed then attempts.map verify
  else
    let size := (attempts.length + threads.workers - 1) / threads.workers
    let started := (chunks size threads.workers attempts).map fun chunk => ⟨chunk, []⟩
    let ran := threads.schedule.foldl (fun ws i => ws.modify i (Worker.advance verify)) started
    ran.flatMap (Worker.join verify)

end Batch

def Bounded (transactions : List Transaction) : Prop :=
  transactions.length ≤ min p.mempool.maxTransactions 8192 ∧
    ∃ bytes, transactions.foldlM (fun bytes tx => checkedAdd64 bytes tx.estimateEncodedLen) 0 = some bytes ∧
      bytes ≤ p.mempool.maxBytes

instance (transactions : List Transaction) : Decidable (p.Bounded transactions) :=
  decidable_of_iff (transactions.length ≤ min p.mempool.maxTransactions 8192 ∧
    (transactions.foldlM (fun bytes tx => checkedAdd64 bytes tx.estimateEncodedLen) 0).any
      (· ≤ p.mempool.maxBytes) = true) (by simp [Bounded, Option.any_eq_true])

def Sequential (threads : Threads) (transactions : List Transaction) : Prop :=
  p.accountExecution = false ∨ transactions.length < 32 ∨ threads.workers = 1

instance (threads : Threads) (transactions : List Transaction) :
    Decidable (p.Sequential threads transactions) := inferInstanceAs (Decidable (_ ∨ _))

def submitTransactions (threads : Threads) (faults : Nat → NativeFaults)
    (transactions : List Transaction) :
    Except ProducerError (List (Except ProducerError Hash256)) × BlockProducer :=
  match (do
    p.ensureRotationProfile
    ensure (.mempool .capacityExceeded) (p.Bounded transactions)
    if p.Sequential threads transactions then return none
    else return some (← p.admissionCapacity) : Except ProducerError (Option Resources)) with
  | .error e => (.error e, p)
  | .ok none =>
    let after := p.submitEach b faults transactions
    (.ok after.1, after.2)
  | .ok (some capacity) =>
    let checked := validation (fun e => p.check b capacity e.2 e.1) threads (attempts faults transactions)
    let after := p.each (fun p entry => p.admitChecked entry.1 entry.2) (transactions.zip checked)
    (.ok after.1, after.2)

def batchReady (threads : Threads) (transactions : List Transaction) : Except ProducerError Unit := do
  p.ensureRotationProfile
  if p.Sequential threads transactions then return ()
  else
    let _ ← p.admissionCapacity
    return ()

/-- Two submissions of the transactions find the native runtime in the same condition for each of
them. -/
def SameRuntime (faults faults' : Nat → NativeFaults) (transactions : List Transaction) : Prop :=
  ∀ i < transactions.length, faults i = faults' i

section Serial

variable {b p} {α : Type} {verify : α → Except ProducerError Hash256} {fs fs' : Nat → NativeFaults}
  {txs : List Transaction}

lemma attempts_congr (h : SameRuntime fs fs' txs) : attempts fs txs = attempts fs' txs := by
  refine map_congr_left fun e he => ?_
  have hi := (mem_zipIdx he).2.1
  rw [h e.2 (by omega)]

lemma length_attempts : (attempts fs txs).length = txs.length := by simp [attempts]

lemma attempts_fst : (attempts fs txs).map Prod.fst = txs := by
  rw [attempts,map_map]
  exact zipIdx_map_fst 0 txs

lemma chunks_flatten (size count : Nat) (l : List α) :
    (chunks size count l).flatten = l.take (count * size) := by
  induction count generalizing l with
  | zero => simp [chunks]
  | succ count ih => rw [chunks,flatten_cons,ih,Nat.succ_mul,Nat.add_comm,take_add]

lemma Worker.join_advance (w : Worker α) : (w.advance verify).join verify = w.join verify := by
  unfold advance
  split
  · rfl
  · next a rest ht => simp [join,ht]

lemma validation_eq (threads : Threads) (es : List α) :
    validation verify threads es = es.map verify := by
  unfold validation
  split
  · rfl
  · have hst : ∀ (ws : List (Worker α)) i,
        (ws.modify i (Worker.advance verify)).map (Worker.join verify) = ws.map (Worker.join verify) := by
      intro ws i
      apply ext_getElem?
      intro j
      rw [getElem?_map,getElem?_map,getElem?_modify]
      cases ws[j]? with
      | none => rfl
      | some w =>
        by_cases hi : i = j
        · simp [hi,Worker.join_advance]
        · simp [hi]
    have hr : ∀ (schedule : List Nat) (ws : List (Worker α)),
        (schedule.foldl (fun ws i => ws.modify i (Worker.advance verify)) ws).map (Worker.join verify) =
          ws.map (Worker.join verify) := by
      intro schedule
      induction schedule with
      | nil => exact fun _ => rfl
      | cons i rest ih => exact fun ws => (ih _).trans (hst ws i)
    have hs : es.length ≤ threads.workers *
        ((es.length + threads.workers - 1) / threads.workers) := by
      have hp := threads.positive
      have hd := Nat.div_add_mod (es.length + threads.workers - 1) threads.workers
      have hm := Nat.mod_lt (es.length + threads.workers - 1) hp
      omega
    rw [flatMap_def,hr,map_map]
    conv_rhs => rw [← take_of_length_le hs,← chunks_flatten,map_flatten]
    exact congrArg flatten (map_congr_left fun chunk _ => nil_append _)

def pooled (p : BlockProducer) (mempool : Mempool) (validator : BasicValidator)
    (admissionSequence : UInt64) : BlockProducer := { p with mempool, validator, admissionSequence }

lemma admitChecked_pooled (tx : Transaction) (res : Except ProducerError Hash256) (m : Mempool)
    (v : BasicValidator) (s : UInt64) :
    ∃ m' v' s', ((p.pooled m v s).admitChecked tx res).2 = p.pooled m' v' s' := by
  cases res with
  | error e => exact ⟨m,v,s,rfl⟩
  | ok id =>
    change ∃ m' v' s', ((p.pooled m v s).admitValidated tx id).2 = _
    unfold admitValidated
    split
    · exact ⟨m,v,s,rfl⟩
    · split
      · exact ⟨m,v,s,rfl⟩
      · split
        · exact ⟨_,_,_,rfl⟩
        · split <;> exact ⟨_,_,_,rfl⟩

lemma each_checked {cap : Resources} (hp : p.ensureRotationProfile = .ok ())
    (hm : p.accountExecution = true) (hc : p.admissionCapacity = .ok cap)
    (es : List (Transaction × NativeFaults)) (m : Mempool) (v : BasicValidator) (s : UInt64) :
    (p.pooled m v s).each (fun p en => p.admitChecked en.1 en.2)
        ((es.map Prod.fst).zip (es.map fun e => p.check b cap e.2 e.1)) =
      (p.pooled m v s).each (fun p e => p.submitTransaction b e.2 e.1) es := by
  induction es generalizing m v s with
  | nil => rfl
  | cons e rest ih =>
    have hs : (p.pooled m v s).submitTransaction b e.2 e.1 =
        (p.pooled m v s).admitChecked e.1 (p.check b cap e.2 e.1) := by
      have hp' : (p.pooled m v s).ensureRotationProfile = .ok () := hp
      have hm' : (p.pooled m v s).accountExecution = true := hm
      have hc' : (p.pooled m v s).admissionCapacity = .ok cap := hc
      rw [submitTransaction,hp',ok_bind,if_pos hm',hc',ok_bind]
      rfl
    obtain ⟨m',v',s',hn⟩ := admitChecked_pooled (p := p) e.1 (p.check b cap e.2 e.1) m v s
    simp only [map_cons,zip_cons_cons,each,hs,hn,ih]

lemma submitEach_refused {e : ProducerError} (h : ∀ f tx, p.submitTransaction b f tx = (.error e,p)) :
    p.submitEach b fs txs = (replicate txs.length (.error e),p) := by
  have hl : (attempts fs txs).length = txs.length := length_attempts
  rw [submitEach,← hl]
  generalize attempts fs txs = es
  induction es with
  | nil => rfl
  | cons a rest ih => simp [each,h,ih,replicate_succ]

end Serial

/-- A batch that passes the bounds is its transactions one by one, for any threads, as long as the
native runtime is in the same condition for them. The exception is a batch that is refused before
any of them is looked at: its one error is the error of each of them. -/
theorem submit_transactions_serial (threads : Threads) (faults faults' : Nat → NativeFaults)
    (transactions : List Transaction) (h : p.Bounded transactions)
    (hs : SameRuntime faults faults' transactions) :
    let serial := p.submitEach b faults' transactions
    (p.batchReady threads transactions = .ok () →
      p.submitTransactions b threads faults transactions = (.ok serial.1, serial.2)) ∧
    ∀ e, p.batchReady threads transactions = .error e →
      p.submitTransactions b threads faults transactions = (.error e, p) ∧
      serial = (replicate transactions.length (.error e), p) := by
  intro serial
  have ha : attempts faults' transactions = attempts faults transactions := (attempts_congr hs).symm
  unfold submitTransactions batchReady
  cases hpr : p.ensureRotationProfile with
  | error e =>
    refine ⟨nofun,?_⟩
    rintro _ ⟨⟩
    refine ⟨rfl,submitEach_refused fun f tx => ?_⟩
    rw [submitTransaction,hpr]
    rfl
  | ok =>
    rw [ok_bind,ok_bind,ensure_of h,ok_bind]
    by_cases hp : p.Sequential threads transactions
    · rw [if_pos hp,if_pos hp]
      refine ⟨fun _ => ?_,nofun⟩
      simp only [serial,submitEach,ha]
      rfl
    · rw [if_neg hp,if_neg hp]
      have hm : p.accountExecution = true := by
        by_contra ho
        exact hp (.inl (Bool.eq_false_iff.mpr ho))
      cases hc : p.admissionCapacity with
      | error e =>
        refine ⟨nofun,?_⟩
        rintro _ ⟨⟩
        refine ⟨rfl,submitEach_refused fun f tx => ?_⟩
        rw [submitTransaction,hpr,ok_bind,if_pos hm,hc]
        rfl
      | ok capacity =>
        refine ⟨fun _ => ?_,nofun⟩
        have he := each_checked (b := b) hpr hm hc (attempts faults transactions) p.mempool p.validator
          p.admissionSequence
        rw [attempts_fst] at he
        simp only [ok_bind,pure_eq_ok,validation_eq,serial,submitEach,ha]
        exact congrArg (fun after => (Except.ok after.1,after.2)) he

namespace Unrecovered

def state : InMemoryState :=
  (InMemoryState.new.prepare residueHash (InMemoryState.new.root residueHash)
    [⟨[.put potbStateKey [1]]⟩]).toOption.getD .new

def producer : BlockProducer where
  config := ⟨7, 10, 10000, ⟨1000, 10000, 1000, 100000⟩⟩
  state := state
  height := 1
  accountExecution := true
  rotation := none
  potb := none
  mempool := ⟨10, 10000, [], [], 0⟩
  validator := ⟨.empty⟩
  admissionSequence := 0

def threads : Threads := ⟨2, by decide, [0, 1], false⟩

def transactions : List Transaction := [SamplePayments.payment 1 2 20]

def refusal : ProducerError := .assembly "persisted PoTB state requires authenticated PoTB recovery"

lemma bounded : producer.Bounded transactions := by decide +kernel

lemma notReady : producer.batchReady threads transactions = .error refusal := by decide +kernel

end Unrecovered

open Unrecovered in
/-- The batch has one error where its transactions would have one each. -/
theorem batch_refused_whole : producer.Bounded transactions ∧
    (producer.submitTransactions SamplePayments.backend threads (fun _ => .available)
      transactions).1 = .error refusal ∧
    (producer.submitEach SamplePayments.backend (fun _ => .available) transactions).1 = [.error refusal] :=
  ⟨bounded,by decide +kernel,by decide +kernel⟩

namespace Mixed
open SamplePayments

def backend : Backend := { SamplePayments.backend with compileTrocto := fun _ => some ⟨[], 0, none⟩ }

def state : InMemoryState :=
  (InMemoryState.new.prepare residueHash (InMemoryState.new.root residueHash)
    [⟨[.put runtimeKey (u32Bytes 3), .put (accountKey (address 1)) (AccountState.toBytes ⟨0, 500⟩),
       .put (accountKey (address 3)) (AccountState.toBytes ⟨0, 500⟩)]⟩]).toOption.getD .new

def producer : BlockProducer :=
  { Unrecovered.producer with state := state, mempool := ⟨100, 1000000, [], [], 0⟩ }

/-- A payment, the payment again, another with its nonce, a native deployment, and payments of
accounts that do not exist. -/
def transactions : List Transaction :=
  [payment 1 2 20, payment 1 2 20, payment 1 2 30,
    contract 3 (.deployTrocto [65])
      [troctoContractCodeKey (troctoContractAddress residueHash 7 (address 3) 0)]] ++
  (range 30).map fun n => payment 9 2 (UInt64.ofNat (n + 1))

/-- The native runtime cannot prepare the deployment. -/
def faults (index : Nat) : NativeFaults := ⟨index = 3, false, false⟩

def threads : Threads := ⟨3, by decide, [2, 0, 1, 1], false⟩

lemma bounded : producer.Bounded transactions := by decide +kernel

lemma ready : producer.batchReady threads transactions = .ok () := by decide +kernel

def results : List (Except ProducerError Hash256) :=
  [.ok ((payment 1 2 20).computeTxId residueHash), .error (.mempool .duplicate),
    .error (.mempool .conflictingNonce), .error (.execution .nativeUnavailable)] ++
  replicate 30 (.error (.execution (.transactionValidation .unknownSender)))

lemma submitted : (producer.submitEach backend faults transactions).1 = results := by decide +kernel

end Mixed

open Mixed in
/-- Three threads share 34 transactions, of which one is accepted. -/
theorem submit_transactions_mixed : transactions.length = 34 ∧ threads.workers = 3 ∧
    (producer.submitTransactions backend threads faults transactions).1 = .ok results := by
  have hs := (submit_transactions_serial backend producer threads faults faults transactions bounded
    fun _ _ => rfl).1 ready
  refine ⟨by decide +kernel,rfl,?_⟩
  rw [hs,submitted]

end BlockProducer
end Astrolune.Node
