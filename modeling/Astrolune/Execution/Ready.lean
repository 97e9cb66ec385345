import Astrolune.Execution.Footprint
import Astrolune.Execution.Waves
import Astrolune.Lib.Readiness
import Astrolune.Lib.Topological

namespace Astrolune.Execution
open Lib Codec Crypto State GreedyScheduler List

def successorIndexes (dependencies : List (List Nat)) : List (List Nat) :=
  dependencies.zipIdx.foldl (fun successors e =>
    e.1.foldl (fun successors previous => successors.modify previous (· ++ [e.2])) successors)
    (replicate dependencies.length [])

structure Job where
  indexes : List Nat
  values : OrderedMap StateKey (Option Bytes)

inductive Event where
  | submitted (job : Job)
  | finished (job : Job) (outputs : List (Nat × TransactionOutput))

def submittedJobs (history : List Event) : List Job :=
  history.filterMap fun
    | .submitted job => some job
    | .finished .. => none

def finishedOutputs (history : List Event) : List (Nat × TransactionOutput) :=
  history.flatMap fun
    | .submitted _ => []
    | .finished _ outputs => outputs

def finishedIndexes (history : List Event) : List Nat := (finishedOutputs history).map Prod.fst

def applyOutputs (values : OrderedMap StateKey (Option Bytes))
    (outputs : List (Nat × TransactionOutput)) : OrderedMap StateKey (Option Bytes) :=
  outputs.foldl (fun values e => Overlay.applyDiff values e.2.diff) values

section Execute

variable (b : Backend) (rules : Rules) (transactions : List Transaction) (faults : Nat → NativeFaults)

/-- Transactions in the given order in one session, up to the first error. A missing transaction
would panic, which the pool reports as a trap. -/
def executeAll : SignedSession → List Nat →
    Except ExecutionError (List (Nat × TransactionOutput) × SignedSession)
  | s, [] => .ok ([], s)
  | s, index :: rest => do
    let tx ← okOr .trap transactions[index]?
    let (output, next) ← SignedSession.execute b rules s (faults index) tx
    let (outputs, last) ← executeAll next rest
    return ((index, output) :: outputs, last)

def serialSession (parent : View) (count : Nat) : Except ExecutionError SignedSession := do
  let (_, s) ← executeAll b rules transactions faults (.new parent) (range count)
  return s

end Execute

def Job.view (parent : View) (job : Job) : View := Overlay.get ⟨parent, job.values⟩

def Job.run (b : Backend) (rules : Rules) (parent : View) (transactions : List Transaction)
    (faults : Nat → NativeFaults) (job : Job) :
    Except ExecutionError (List (Nat × TransactionOutput)) := do
  let (outputs, _) ← executeAll b rules transactions faults (.new (job.view parent)) job.indexes
  return outputs

def declaredKeys (transactions : List Transaction) (indexes : List Nat) : List StateKey :=
  indexes.flatMap fun index => (transactions[index]?.map Transaction.accessList).getD []

def freeze (values : OrderedMap StateKey (Option Bytes)) (keys : List StateKey) :
    OrderedMap StateKey (Option Bytes) :=
  (keys.filterMap fun key => (values.get key).map (key, ·)).foldl
    (fun frozen e => frozen.insert e.1 e.2) .empty

structure Coordinator where
  counters : Counters
  outputs : Nat → Option TransactionOutput
  values : OrderedMap StateKey (Option Bytes)
  inFlight : List Job
  completed : Nat
  history : List Event

namespace Coordinator

def start (transactions : List Transaction) : Coordinator where
  counters := .start (dependencies transactions)
  outputs _ := none
  values := .empty
  inFlight := []
  completed := 0
  history := []

section Steps

variable (transactions : List Transaction)

def successors : List (List Nat) := successorIndexes (dependencies transactions)

def submit (c : Coordinator) (indexes : List Nat) (counters : Counters) : Coordinator :=
  let job : Job := ⟨indexes, freeze c.values (declaredKeys transactions indexes)⟩
  { c with counters, inFlight := c.inFlight ++ [job], history := c.history ++ [.submitted job] }

def fill : Nat → Coordinator → Coordinator
  | 0, c => c
  | idle+1, c =>
    match c.counters.take (successors transactions) transactions.length with
    | none => c
    | some (indexes, counters) => fill idle (c.submit transactions indexes counters)

def publish (c : Coordinator) (e : Nat × TransactionOutput) : Coordinator :=
  { c with
    counters := c.counters.finish (successors transactions) e.1
    outputs := Function.update c.outputs e.1 (some e.2)
    values := Overlay.applyDiff c.values e.2.diff
    completed := c.completed + 1 }

def receive (c : Coordinator) (place : Nat) (job : Job) (outputs : List (Nat × TransactionOutput)) :
    Coordinator :=
  outputs.foldl (publish transactions)
    { c with inFlight := c.inFlight.eraseIdx place, history := c.history ++ [.finished job outputs] }

variable (b : Backend) (rules : Rules) (parent : View) (faults : Nat → NativeFaults) (pool : Nat)

/-- One turn of the loop. Which job finishes first is the choice of the workers. -/
def round (choice : Nat) (c : Coordinator) : Except ExecutionError Unit × Coordinator :=
  let c := c.fill transactions (pool - c.inFlight.length)
  let place := choice % c.inFlight.length
  match c.inFlight[place]? with
  | none => (.error .conflict, c)
  | some job =>
    match job.run b rules parent transactions faults with
    | .error e => (.error e, { c with inFlight := c.inFlight.eraseIdx place })
    | .ok outputs => (.ok (), c.receive transactions place job outputs)

def coordinate (choose : Nat → Nat) : Nat → Coordinator → Except ExecutionError Unit × Coordinator
  | 0, c => (.ok (), c)
  | fuel+1, c =>
    if c.completed < transactions.length then
      match c.round transactions b rules parent faults pool (choose fuel) with
      | (.error e, c) => (.error e, c)
      | (.ok _, c) => c.coordinate choose fuel
    else (.ok (), c)

end Steps
end Coordinator

def poolSize (transactions : List Transaction) (workers : Nat) : Nat :=
  min workers (((plan transactions).map length).max?.getD 1)

end Astrolune.Execution
