import Astrolune.Lib.OrderedMap
import Astrolune.Types.Block

namespace Astrolune.Runtime
open Lib Codec

inductive RuntimeError where
  | invalidModule
  | unsupported
  | limitExceeded
  | trap
  deriving DecidableEq

def maxModuleSize : Nat := 1024 * 1024
def maxInputSize : Nat := 256 * 1024
def maxOutputSize : Nat := 256 * 1024
def maxWasmMemory : Nat := 16 * 1024 * 1024
def maxHostValue : Nat := 64 * 1024
def maxHostIo : Nat := 1024 * 1024

structure WasmCall where
  input : Bytes
  caller : Address
  height : UInt64
  state : OrderedMap Bytes Bytes
  access : List Bytes
  limits : Resources

structure WasmOutput where
  returnData : Bytes
  events : List (Bytes × Bytes)
  writes : OrderedMap Bytes (Option Bytes)
  resources : Resources

def validateCall (call : WasmCall) : Except RuntimeError Unit := do
  ensure .limitExceeded (call.input.length ≤ maxInputSize ∧ call.limits.compute ≠ 0 ∧
    call.limits.compute.toNat ≤ 10000000 ∧ call.limits.memory.toNat ≤ maxWasmMemory ∧
    call.limits.io.toNat ≤ maxHostIo ∧ call.limits.bandwidth.toNat ≤ maxOutputSize ∧
    call.state.entries.length ≤ 1024 ∧ call.access.length ≤ 1024)
  let _ ← call.state.entries.foldlM (fun bytes e => do
    ensure .limitExceeded (e.1 ≠ [] ∧ e.1.length ≤ 256 ∧ e.2.length ≤ maxHostValue)
    ensure .limitExceeded (bytes + (e.1.length + e.2.length) ≤ maxHostIo)
    return bytes + (e.1.length + e.2.length)) 0
  ensure .limitExceeded (∀ key ∈ call.access, key ≠ [] ∧ key.length ≤ 256)

/-- The host's side of a call, with the linear memory and the fuel that it shares with the guest.
The topics of events have 32 bytes. -/
structure Host where
  output : Bytes
  writes : OrderedMap Bytes (Option Bytes)
  events : List (Bytes × Bytes)
  io : Nat
  bandwidth : Nat
  memory : Bytes
  fuel : Nat

abbrev HostM := StateT Host (Except RuntimeError)

namespace Host

def start (fuel : UInt64) : Host := ⟨[], .empty, [], 0, 0, [], fuel.toNat⟩

variable (call : WasmCall)

def charge (bytes : Nat) (io bandwidth : Bool) : HostM Unit := fun host => do
  ensure .limitExceeded (20 + bytes ≤ host.fuel)
  let read ← okOr .trap (checkedAdd64 host.io (if io then bytes else 0))
  let sent ← okOr .trap (checkedAdd64 host.bandwidth (if bandwidth then bytes else 0))
  ensure .limitExceeded (read ≤ call.limits.io.toNat ∧ sent ≤ call.limits.bandwidth.toNat)
  return ((), { host with fuel := host.fuel - (20 + bytes), io := read, bandwidth := sent })

def readMemory (pointer length : Int) (maximum : Nat) : HostM Bytes := do
  StateT.lift (ensure .trap (0 ≤ pointer ∧ 0 ≤ length))
  StateT.lift (ensure .limitExceeded (length.toNat ≤ maximum))
  charge call length.toNat false false
  let host ← get
  StateT.lift (ensure .trap (pointer.toNat + length.toNat ≤ host.memory.length))
  return (host.memory.drop pointer.toNat).take length.toNat

def writeMemory (pointer : Int) (bytes : Bytes) : HostM Unit := do
  StateT.lift (ensure .trap (0 ≤ pointer))
  charge call bytes.length false false
  let host ← get
  StateT.lift (ensure .trap (pointer.toNat + bytes.length ≤ host.memory.length))
  set { host with memory := host.memory.take pointer.toNat ++ (bytes ++
    host.memory.drop (pointer.toNat + bytes.length)) }

def readKey (pointer length : Int) : HostM Bytes := do
  let key ← readMemory call pointer length 256
  StateT.lift (ensure .trap (key ≠ [] ∧ key ∈ call.access))
  return key

end Host

inductive HostCall where
  | inputLen
  | inputCopy (offset pointer length : Int)
  | output (pointer length : Int)
  | stateGet (key keyLen output capacity : Int)
  | statePut (key keyLen value valueLen : Int)
  | stateDelete (key keyLen : Int)
  | caller (output : Int)
  | blockHeight
  | emit (topic value length : Int)

def HostCall.perform (call : WasmCall) : HostCall → HostM Int
  | .inputLen => do
    Host.charge call 0 false false
    return call.input.length
  | .inputCopy offset pointer length => do
    StateT.lift (ensure .trap (0 ≤ offset ∧ 0 ≤ length ∧
      offset.toNat + length.toNat ≤ call.input.length))
    Host.writeMemory call pointer ((call.input.drop offset.toNat).take length.toNat)
    return 0
  | .output pointer length => do
    let bytes ← Host.readMemory call pointer length maxOutputSize
    Host.charge call bytes.length false true
    modify fun host => { host with output := bytes }
    return 0
  | .stateGet key keyLen target capacity => do
    let key ← Host.readKey call key keyLen
    let host ← get
    let value := (host.writes.get key).getD (call.state.get key)
    Host.charge call (key.length + (value.map List.length).getD 0) true false
    match value with
    | none => return -1
    | some value => do
      StateT.lift (ensure .limitExceeded (0 ≤ capacity ∧ value.length ≤ capacity.toNat))
      Host.writeMemory call target value
      return value.length
  | .statePut key keyLen value valueLen => do
    let key ← Host.readKey call key keyLen
    let value ← Host.readMemory call value valueLen maxHostValue
    Host.charge call (key.length + value.length) true false
    modify fun host => { host with writes := host.writes.insert key (some value) }
    return 0
  | .stateDelete key keyLen => do
    let key ← Host.readKey call key keyLen
    Host.charge call key.length true false
    modify fun host => { host with writes := host.writes.insert key none }
    return 0
  | .caller target => do
    Host.writeMemory call target call.caller.1
    return 0
  | .blockHeight => do
    Host.charge call 0 false false
    return Int.bmod call.height.toNat (2 ^ 64)
  | .emit topic value length => do
    let host ← get
    StateT.lift (ensure .limitExceeded (host.events.length < 256))
    let topic ← Host.readMemory call topic 32 32
    let value ← Host.readMemory call value length maxHostValue
    Host.charge call (32 + value.length) false true
    modify fun host => { host with events := host.events ++ [(topic, value)] }
    return 0

/-- What an instance does with its fuel until it returns, traps or calls the host. How the engine
interprets the module in between is not modelled; fuel makes every run finite. -/
inductive Guest where
  | returned (status : Int) (memory fuel : Nat)
  | trapped (limit : Bool)
  | calls (host : HostCall) (memory : Bytes) (fuel : Nat)
      (resume : Int → Bytes → Nat → Guest)

/-- The engine: which modules it accepts, and the instance of one under a call's limits. -/
structure WasmEngine where
  accepts : Bytes → Except RuntimeError Unit
  instantiate : Bytes → Resources → Except RuntimeError Guest

def Guest.run (call : WasmCall) : Guest → Host → Except RuntimeError WasmOutput
  | returned status memory fuel, host => do
    ensure .trap (status = 0)
    return { returnData := host.output, events := host.events, writes := host.writes,
             resources := { compute := call.limits.compute - UInt64.ofNat fuel,
                            memory := UInt64.ofNat memory, io := UInt64.ofNat host.io,
                            bandwidth := UInt64.ofNat host.bandwidth } }
  | trapped limit, _ => .error (if limit then .limitExceeded else .trap)
  | calls function memory fuel resume, host =>
    match (function.perform call).run { host with memory, fuel } with
    | .error e => .error e
    | .ok (value, host) => (resume value host.memory host.fuel).run call host

def compile (engine : WasmEngine) (code : Bytes) : Except RuntimeError Unit := do
  ensure .limitExceeded (code.length ≤ maxModuleSize)
  ensure .invalidModule ((0 :: (ascii "asm" ++ [1, 0, 0, 0])).isPrefixOf code = true)
  engine.accepts code

def execute (engine : WasmEngine) (code : Bytes) (call : WasmCall) :
    Except RuntimeError WasmOutput := do
  compile engine code
  validateCall call
  let guest ← engine.instantiate code call.limits
  guest.run call (Host.start call.limits.compute)

end Astrolune.Runtime
