import Astrolune.Execution.Payment
import Astrolune.Runtime.Wasm
import Astrolune.Trocto.Machine

namespace Astrolune.Execution
open Lib Codec Crypto State

/-- What a node links: the cryptography, the WebAssembly engine and the Trocto front end. -/
structure Backend where
  crypto : Suite
  wasm : Runtime.WasmEngine
  compileTrocto : Bytes → Option Trocto.Program

structure NativeFaults where
  prepare : Bool
  program : Bool
  execute : Bool

/-- No local failure: what the execution of a transaction is by the rules alone. -/
def NativeFaults.available : NativeFaults := ⟨false, false, false⟩

def maxNativeFuel : Nat := 10000000

inductive NativeError where
  | source
  | fuelLimit
  | contract (e : Trocto.ExecutionError)
  | unavailable

def nativeError : NativeError → ExecutionError
  | .source => .invalidContract
  | .fuelLimit | .contract .fuelExhausted | .contract .eventLimit => .resourceLimit
  | .contract .accessDenied => .undeclaredStateAccess
  | .contract .overflow | .contract .divisionByZero | .contract .bounds => .trap
  | .contract .invalidContext | .unavailable => .nativeUnavailable

def nativeProgram (b : Backend) (fails : Bool) (source : Bytes) :
    Except NativeError Trocto.Program :=
  if fails then .error .unavailable else okOr .source (b.compileTrocto source)

def nativeExecute (fails : Bool) (program : Trocto.Program) (input : UInt64)
    (context : Trocto.ContractContext) (fuel : UInt64) :
    Except NativeError Trocto.ContractExecution := do
  ensure .fuelLimit (fuel.toNat ≤ maxNativeFuel)
  ensure .unavailable (fails = false)
  match program.evaluateContract input context fuel with
  | .ok result => .ok result
  | .error e => .error (.contract e)

def ofNative {α : Type} : Except NativeError α → Except ExecutionError α
  | .ok a => .ok a
  | .error e => .error (nativeError e)

def ofRuntime {α : Type} : Except Runtime.RuntimeError α → Except ExecutionError α
  | .ok a => .ok a
  | .error .invalidModule | .error .unsupported => .error .invalidContract
  | .error .limitExceeded => .error .resourceLimit
  | .error .trap => .error .trap

@[simp] lemma ofNative_eq_ok {α : Type} {x : Except NativeError α} {a : α} :
    ofNative x = .ok a ↔ x = .ok a := by
  cases x <;> simp [ofNative]

@[simp] lemma ofRuntime_eq_ok {α : Type} {x : Except Runtime.RuntimeError α} {a : α} :
    ofRuntime x = .ok a ↔ x = .ok a := by
  rcases x with e | a
  · cases e <;> simp [ofRuntime]
  · simp [ofRuntime]

structure Effects where
  diff : StateDiff
  actual : List AccessRequest
  resources : Resources
  resultBytes : Bytes

def subtract (a b : Resources) : Except ExecutionError Resources := do
  let compute ← okOr .resourceLimit (Resources.checkedSubU64 a.compute b.compute)
  let memory ← okOr .resourceLimit (Resources.checkedSubU64 a.memory b.memory)
  let io ← okOr .resourceLimit (Resources.checkedSubU64 a.io b.io)
  let bandwidth ← okOr .resourceLimit (Resources.checkedSubU64 a.bandwidth b.bandwidth)
  return { compute, memory, io, bandwidth }

def deployResources (tx : Transaction) (code : Bytes) : Resources :=
  ⟨UInt64.ofNat (100 + code.length), UInt64.ofNat (code.length + 32),
    UInt64.ofNat (code.length + 32), UInt64.ofNat tx.estimateEncodedLen⟩

def change (key : StateKey) : Option Bytes → StateChange
  | some value => .put key value
  | none => .delete key

def runtimeKey : StateKey := ascii "astrolune/runtime/v2"

section Actions

variable (b : Backend) (view : View) (tx : Transaction) (context : ValidationContext)

def loadState (address : Address) (keys : List Bytes) :
    Except ExecutionError (OrderedMap Bytes Bytes × Nat) :=
  keys.foldlM (fun acc key => do
    let global := contractStateKey b.crypto.blake2s address key
    ensure .undeclaredStateAccess (global ∈ tx.accessList)
    let found ← ofState (view global)
    match found with
    | none => return acc
    | some value => do
      let loaded := acc.2 + (value.length + key.length)
      ensure .resourceLimit (value.length ≤ Runtime.maxHostValue ∧ loaded ≤ Runtime.maxHostIo)
      return (acc.1.insert key value, loaded)) (.empty, 0)

def stageResult (address : Address) (result : Runtime.WasmOutput) : StateDiff × Bytes :=
  (⟨result.writes.entries.map fun e => change (contractStateKey b.crypto.blake2s address e.1) e.2⟩,
   encodeBytes result.returnData ++ (encodeLength result.events.length ++
     result.events.flatMap fun e => e.1 ++ encodeBytes e.2))

def baseAccesses (codeKey : StateKey) (mode : AccessMode) : List AccessRequest :=
  [⟨accountKey tx.sender, .write⟩, ⟨codeKey, mode⟩]

def executeDeploy (code : Bytes) : Except ExecutionError Effects := do
  let address := contractAddress b.crypto.blake2s tx.chainId tx.sender tx.nonce
  let codeKey := contractCodeKey address
  ensure .undeclaredStateAccess (codeKey ∈ tx.accessList)
  let found ← ofState (view codeKey)
  ensure .invalidContract (found = none)
  ofRuntime (Runtime.compile b.wasm code)
  return { diff := StateDiff.put ⟨[]⟩ codeKey code, actual := baseAccesses tx codeKey .write,
           resources := deployResources tx code, resultBytes := address.1 }

def executeCall (address : Address) (input : Bytes) (keys : List Bytes) :
    Except ExecutionError Effects := do
  let codeKey := contractCodeKey address
  ensure .undeclaredStateAccess (codeKey ∈ tx.accessList)
  let found ← ofState (view codeKey)
  let code ← okOr .invalidContract found
  let (state, loaded) ← loadState b view tx address keys
  let overhead : Resources := ⟨UInt64.ofNat (100 + loaded), 32,
    UInt64.ofNat (code.length + 32 + loaded), UInt64.ofNat tx.estimateEncodedLen⟩
  let limits ← subtract tx.resourceLimit overhead
  let result ← ofRuntime (Runtime.execute b.wasm code
    { input, caller := tx.sender, height := context.nextHeight, state, access := keys, limits })
  let (diff, resultBytes) := stageResult b address result
  let resources ← okOr .resourceLimit (overhead.checkedAdd result.resources)
  return { diff, resources, resultBytes,
           actual := baseAccesses tx codeKey .read ++
             (keys.map fun key => ⟨contractStateKey b.crypto.blake2s address key, .read⟩) ++
             result.writes.entries.map fun e =>
               ⟨contractStateKey b.crypto.blake2s address e.1, .write⟩ }

def executeDeployTrocto (faults : NativeFaults) (code : Bytes) : Except ExecutionError Effects := do
  let address := troctoContractAddress b.crypto.blake2s tx.chainId tx.sender tx.nonce
  let codeKey := troctoContractCodeKey address
  ensure .undeclaredStateAccess (codeKey ∈ tx.accessList)
  let found ← ofState (view codeKey)
  ensure .invalidContract (found = none)
  ensure .invalidContract (ByteArray.validateUTF8 ⟨code.toArray⟩ = true)
  let _ ← okOr .invalidContract (b.compileTrocto code)
  let _ ← subtract tx.resourceLimit (deployResources tx code)
  let _ ← ofNative (nativeProgram b faults.prepare code)
  return { diff := StateDiff.put ⟨[]⟩ codeKey code, actual := baseAccesses tx codeKey .write,
           resources := deployResources tx code, resultBytes := address.1 }

/-- One key of the program's context: whether the call may use it, its value if it may, and the
bytes read for it. -/
structure Slot where
  authorized : Bool
  value : Option UInt64
  loaded : Nat

def loadSlot (address : Address) (keys : List Bytes) (key : Bytes) : Except ExecutionError Slot :=
  if key ∈ keys then do
    let found ← ofState (view (troctoContractStateKey b.crypto.blake2s address key))
    match found with
    | none => return ⟨true, none, key.length⟩
    | some bytes => do
      ensure .invalidContract (bytes.length = 8)
      return ⟨true, some (UInt64.ofNat (leNat bytes)), key.length + bytes.length⟩
  else .ok ⟨false, none, 0⟩

def contextKeys (program : Trocto.Program) (keys : List Bytes) : List Bytes :=
  program.stateKeys ++ keys.filter (· ∉ program.stateKeys)

def callerWords (sender : Address) : Vector UInt64 4 :=
  Vector.ofFn fun index => UInt64.ofNat (leNat ((sender.1.drop (index * 8)).take 8))

def writtenSlots (keys : List Bytes) (result : Trocto.ContractExecution) :
    List (Bytes × Option UInt64) :=
  ((keys.zip result.state).zip result.writes).filterMap fun e =>
    if e.2 then some e.1 else none

def stageTroctoResult (address : Address) (keys : List Bytes) (result : Trocto.ContractExecution) :
    Except ExecutionError (StateDiff × Resources × Bytes) := do
  ensure .nativeUnavailable
    (result.state.length = keys.length ∧ result.writes.length = keys.length)
  let written := writtenSlots keys result
  let io := 8 + 4 + result.events.length * 16 +
    (written.map fun e => e.1.length + if e.2.isSome then 8 else 0).sum
  return (⟨written.map fun e =>
      change (troctoContractStateKey b.crypto.blake2s address e.1) (e.2.map u64Bytes)⟩,
    ⟨result.fuelUsed, UInt64.ofNat io, UInt64.ofNat io, 0⟩,
    u64Bytes result.value ++ (encodeLength result.events.length ++
      result.events.flatMap fun e => u64Bytes e.1 ++ u64Bytes e.2))

def executeCallTrocto (faults : NativeFaults) (address : Address) (input : Bytes)
    (keys : List Bytes) : Except ExecutionError Effects := do
  let codeKey := troctoContractCodeKey address
  ensure .undeclaredStateAccess (codeKey ∈ tx.accessList)
  let found ← ofState (view codeKey)
  let code ← okOr .invalidContract found
  ensure .invalidContract (ByteArray.validateUTF8 ⟨code.toArray⟩ = true)
  let program ← ofNative (nativeProgram b faults.program code)
  ensure .undeclaredStateAccess
    (∀ key ∈ keys, troctoContractStateKey b.crypto.blake2s address key ∈ tx.accessList)
  let names := contextKeys program keys
  ensure .resourceLimit (names.length ≤ maxContractKeys)
  let slots ← names.mapM (loadSlot b view address keys)
  let loaded := (slots.map Slot.loaded).sum
  let overhead : Resources := ⟨UInt64.ofNat (100 + loaded),
    UInt64.ofNat (code.length + 32 + program.instructionCount * 8 +
      (names.map fun key => key.length + 16).sum),
    UInt64.ofNat (code.length + 32 + loaded), UInt64.ofNat tx.estimateEncodedLen⟩
  let limits ← subtract tx.resourceLimit overhead
  ensure .invalidContract (input.length = 8)
  let result ← ofNative (nativeExecute faults.execute program (UInt64.ofNat (leNat input))
    { height := context.nextHeight, caller := callerWords tx.sender, keys := names,
      state := slots.map Slot.value, access := slots.map Slot.authorized } limits.compute)
  let (diff, charged, resultBytes) ← stageTroctoResult b address names result
  let resources ← okOr .resourceLimit (overhead.checkedAdd charged)
  return { diff, resources, resultBytes,
           actual := baseAccesses tx codeKey .read ++
             ((names.filter (· ∈ keys)).map fun key =>
               ⟨troctoContractStateKey b.crypto.blake2s address key, .read⟩) ++
             (writtenSlots names result).map fun e =>
               ⟨troctoContractStateKey b.crypto.blake2s address e.1, .write⟩ }

def requireNativeProfile : Except ExecutionError Unit := do
  let profile ← ofState (view runtimeKey)
  ensure (.transactionValidation .unsupportedPayload) (profile = some (u32Bytes 3))
  ensure .resourceLimit (tx.resourceLimit.compute.toNat ≤ maxNativeFuel)

def executeAction (faults : NativeFaults) : ContractAction → Except ExecutionError Effects
  | .deploy code => executeDeploy b view tx code
  | .call address input keys => executeCall b view tx context address input keys
  | .deployTrocto code => do
    requireNativeProfile view tx
    executeDeployTrocto b view tx faults code
  | .callTrocto address input keys => do
    requireNativeProfile view tx
    executeCallTrocto b view tx context faults address input keys

def resultDomain : ContractAction → Bytes
  | .deploy _ | .call .. => ascii "astrolune.contract.result.v2"
  | .deployTrocto _ | .callTrocto .. => ascii "astrolune.contract.result.v3"

def executeContract (capacity prices : Resources) (faults : NativeFaults) :
    Except ExecutionError TransactionOutput := do
  let payload ← ofTransaction (ContractPayload.decode tx.payload)
  let found ← ofState (readAccount view tx.sender)
  let sender ← okOr (.transactionValidation .unknownSender) found
  let validated ← ofTransaction ((SignedValidator.forSender tx.sender sender payload.publicKey
    capacity prices).validate b.crypto tx context)
  ensure .undeclaredStateAccess (accountKey tx.sender ∈ tx.accessList)
  let effects ← executeAction b view tx context faults payload.action
  ensure .resourceLimit
    (effects.resources.fitsIn tx.resourceLimit ∧ effects.resources.fitsIn capacity)
  let fee ← okOr .resourceLimit (effects.resources.checkedCost prices)
  let nonce ← okOr (.transactionValidation .invalidNonce) (Resources.checkedAddU64 sender.nonce 1)
  let balance ← okOr (.transactionValidation .insufficientResources)
    (Resources.checkedSubU64 sender.balance fee)
  let next : AccountState := ⟨nonce, balance⟩
  let diff := (effects.diff.put (accountKey tx.sender) next.toBytes).sortCanonical
  return { diff
           receipt := ⟨validated.id, true, effects.resources,
             domainHash b.crypto.blake2s (resultDomain payload.action)
               ((diff.commitment b.crypto.blake2s).1 ++ effects.resultBytes)⟩
           observedLease := .new effects.actual }

end Actions
end Astrolune.Execution
