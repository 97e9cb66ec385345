import Astrolune.Execution.Scheduler
import Astrolune.Transaction.Validator

namespace Astrolune.Execution
open Lib Codec Crypto State

inductive ExecutionError where
  | invalidContract
  | undeclaredStateAccess
  | resourceLimit
  | conflict
  | trap
  | nativeUnavailable
  | transactionValidation (e : TransactionError)
  | state (e : StateError)
  deriving DecidableEq

def ofState {α : Type} : Except StateError α → Except ExecutionError α
  | .ok a => .ok a
  | .error e => .error (.state e)

def ofTransaction {α : Type} : Except TransactionError α → Except ExecutionError α
  | .ok a => .ok a
  | .error e => .error (.transactionValidation e)

@[simp] lemma ofState_eq_ok {α : Type} {x : Except StateError α} {a : α} :
    ofState x = .ok a ↔ x = .ok a := by
  cases x <;> simp [ofState]

@[simp] lemma ofTransaction_eq_ok {α : Type} {x : Except TransactionError α} {a : α} :
    ofTransaction x = .ok a ↔ x = .ok a := by
  cases x <;> simp [ofTransaction]

structure TransactionOutput where
  diff : StateDiff
  receipt : ExecutionReceipt
  observedLease : StateLease
  deriving DecidableEq

def paymentResources (tx : Transaction) : Resources :=
  ⟨1, 32, 4, UInt64.ofNat tx.estimateEncodedLen⟩

structure PaymentSession where
  view : View
  accounts : OrderedMap Address AccountState
  context : ValidationContext
  capacity : Resources
  used : Resources
  prices : Resources

namespace PaymentSession

def new (view : View) (context : ValidationContext) (capacity prices : Resources) :
    PaymentSession :=
  ⟨view, .empty, context, capacity, .zero, prices⟩

def account (s : PaymentSession) (address : Address) :
    Except ExecutionError (Option AccountState) :=
  match s.accounts.get address with
  | some account => .ok (some account)
  | none => ofState (readAccount s.view address)

/-- The accounts after the transfer: the sender's, and the recipient's unless it is the same. -/
def transfer (s : PaymentSession) (tx : Transaction) (payment : Payment) (nonce balance : UInt64) :
    Except ExecutionError (AccountState × Option AccountState) :=
  if tx.sender = payment.recipient then .ok (⟨nonce, balance⟩, none)
  else do
    let left ← okOr (.transactionValidation .insufficientResources)
      (Resources.checkedSubU64 balance payment.amount)
    let found ← s.account payment.recipient
    let recipient := found.getD ⟨0, 0⟩
    let received ← okOr .trap (Resources.checkedAddU64 recipient.balance payment.amount)
    return (⟨nonce, left⟩, some ⟨recipient.nonce, received⟩)

def diff (tx : Transaction) (payment : Payment) (sender : AccountState)
    (recipient : Option AccountState) : StateDiff :=
  let diff := StateDiff.put ⟨[]⟩ (accountKey tx.sender) sender.toBytes
  match recipient with
  | none => diff.sortCanonical
  | some account => (diff.put (accountKey payment.recipient) account.toBytes).sortCanonical

/-- The output and the session after it; an error leaves the session as it was. -/
def execute (c : Suite) (s : PaymentSession) (tx : Transaction) :
    Except ExecutionError (TransactionOutput × PaymentSession) := do
  let payment ← ofTransaction (Payment.decode tx.payload)
  let found ← s.account tx.sender
  let sender ← okOr (.transactionValidation .unknownSender) found
  let validated ← ofTransaction ((SignedValidator.forSender tx.sender sender payment.publicKey
    s.capacity s.prices).validate c tx s.context)
  let resources := paymentResources tx
  let used ← okOr .resourceLimit (s.used.checkedAdd resources)
  ensure .resourceLimit (resources.fitsIn tx.resourceLimit ∧ used.fitsIn s.capacity)
  ensure .undeclaredStateAccess
    (accountKey tx.sender ∈ tx.accessList ∧ accountKey payment.recipient ∈ tx.accessList)
  let limit ← okOr (.transactionValidation .insufficientResources)
    (tx.resourceLimit.checkedCost s.prices)
  let reserve ← okOr (.transactionValidation .insufficientResources)
    (Resources.checkedAddU64 limit payment.amount)
  ensure (.transactionValidation .insufficientResources) (reserve ≤ sender.balance)
  let fee ← okOr .resourceLimit (resources.checkedCost s.prices)
  let nonce ← okOr (.transactionValidation .invalidNonce) (Resources.checkedAddU64 sender.nonce 1)
  let balance ← okOr (.transactionValidation .insufficientResources)
    (Resources.checkedSubU64 sender.balance fee)
  let (nextSender, nextRecipient) ← s.transfer tx payment nonce balance
  let changes := diff tx payment nextSender nextRecipient
  let accounts := s.accounts.insert tx.sender nextSender
  return ({ diff := changes
            receipt := ⟨validated.id, true, resources, changes.commitment c.blake2s⟩
            observedLease := .new ([accountKey tx.sender, accountKey payment.recipient].map
              fun key => ⟨key, .write⟩) },
          { s with
            used
            accounts := match nextRecipient with
              | none => accounts
              | some account => accounts.insert payment.recipient account })

end PaymentSession
end Astrolune.Execution
