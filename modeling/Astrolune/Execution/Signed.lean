import Astrolune.Execution.Contract

namespace Astrolune.Execution
open Lib Codec Crypto State

/-- Values that a session has put over its parent; an absent key is passed on. -/
structure Overlay where
  parent : View
  values : OrderedMap StateKey (Option Bytes)

namespace Overlay

def get (o : Overlay) : View := fun key =>
  match o.values.get key with
  | some value => .ok value
  | none => o.parent key

def applyChange (values : OrderedMap StateKey (Option Bytes)) :
    StateChange → OrderedMap StateKey (Option Bytes)
  | .put key value => values.insert key (some value)
  | .delete key => values.insert key none

def applyDiff (values : OrderedMap StateKey (Option Bytes)) (diff : StateDiff) :
    OrderedMap StateKey (Option Bytes) := diff.changes.foldl applyChange values

def apply (o : Overlay) (diff : StateDiff) : Overlay := { o with values := applyDiff o.values diff }

end Overlay

structure Rules where
  context : ValidationContext
  capacity : Resources
  contracts : Bool
  prices : Resources

structure SignedSession where
  overlay : Overlay
  used : Resources

namespace SignedSession

def new (parent : View) : SignedSession := ⟨⟨parent, .empty⟩, .zero⟩

def output (b : Backend) (rules : Rules) (view : View) (faults : NativeFaults) (tx : Transaction) :
    Except ExecutionError TransactionOutput :=
  match tx.lane with
  | .payments => do
    let (output, _) ← (PaymentSession.new view rules.context rules.capacity rules.prices).execute
      b.crypto tx
    return output
  | .contracts =>
    if rules.contracts then
      executeContract b view tx rules.context rules.capacity rules.prices faults
    else .error (.transactionValidation .unsupportedPayload)
  | .system => .error (.transactionValidation .unsupportedPayload)

/-- The output and the session after it; an error leaves the session as it was. -/
def execute (b : Backend) (rules : Rules) (s : SignedSession) (faults : NativeFaults)
    (tx : Transaction) : Except ExecutionError (TransactionOutput × SignedSession) := do
  let output ← output b rules s.overlay.get faults tx
  let used ← okOr .resourceLimit (s.used.checkedAdd output.receipt.resources)
  ensure .resourceLimit (used.fitsIn rules.capacity)
  return (output, ⟨s.overlay.apply output.diff, used⟩)

end SignedSession

namespace SamplePayments

def backend : Backend where
  crypto := { ed25519Verify := fun _ _ _ => true, strongKey := fun _ => true, blake2s := residueHash,
              verifyEcvrf := fun _ _ _ => none, canonicalProof := fun _ => false }
  wasm := { accepts := fun _ => .ok (), instantiate := fun _ _ => .ok (.returned 0 0 0) }
  compileTrocto := fun _ => none

def publicKey (owner : UInt8) : Fixed 32 := Fixed.fill 32 owner

def address (owner : UInt8) : Address :=
  SignedValidator.addressFromPublicKey backend.crypto (publicKey owner)

def payment (sender recipient : UInt8) (amount : UInt64) : Transaction where
  version := transactionVersion
  expiresAt := 9
  lane := .payments
  resourcePrices := ⟨1, 0, 0, 0⟩
  chainId := 7
  sender := address sender
  nonce := 0
  accessList := [accountKey (address sender), accountKey (address recipient)]
  resourceLimit := ⟨10, 100, 10, 1000⟩
  payload := Payment.toBytes ⟨publicKey sender, address recipient, amount⟩
  signature := Fixed.fill 64 0

def contract (sender : UInt8) (action : ContractAction) (keys : List StateKey) : Transaction :=
  { payment sender sender 0 with
    lane := .contracts
    accessList := accountKey (address sender) :: keys
    resourceLimit := ⟨200, 200, 200, 2000⟩
    payload := ContractPayload.toBytes ⟨publicKey sender, action⟩ }

def block : List Transaction := [payment 1 2 20, payment 3 4 5, payment 2 5 30]

def view : View := fun key =>
  .ok (if key ∈ [accountKey (address 1), accountKey (address 2), accountKey (address 3)] then
    some (AccountState.toBytes ⟨0, 100⟩) else none)

def rules : Rules where
  context := ⟨7, 1, 10000⟩
  capacity := ⟨1000, 10000, 1000, 100000⟩
  contracts := true
  prices := ⟨1, 0, 0, 0⟩

end SamplePayments
end Astrolune.Execution
