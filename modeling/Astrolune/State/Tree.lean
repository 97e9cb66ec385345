import Astrolune.Lib.Merkle
import Astrolune.Lib.OrderedMap
import Astrolune.Types.Transaction

namespace Astrolune.State
open Lib Codec

inductive StateError where
  | corrupt
  | leaseViolation
  | staleSnapshot
  | limitExceeded
  | rootMismatch
  | locked
  | io
  | durabilityUnknown
  deriving DecidableEq

inductive StateChange where
  | put (key : StateKey) (value : Bytes)
  | delete (key : StateKey)
  deriving DecidableEq

def StateChange.key : StateChange → StateKey
  | .put key _ => key
  | .delete key => key

structure StateDiff where
  changes : List StateChange
  deriving DecidableEq

def maxStateEntries : Nat := 1048576
def maxStateKeyBytes : Nat := 256
def maxStateValueBytes : Nat := 1048576
def maxSnapshotBytes : Nat := 64 * 1024 * 1024
def headerBytes : Nat := 8 + 2 + 8 + 32

def entrySize (key : StateKey) (value : Bytes) : Nat := 16 + key.length + value.length

section Commitment

variable (H : Hasher)

def leafHash (key : StateKey) (value : Bytes) : Hash256 :=
  domainHash H (ascii "astrolune.state.leaf.v1")
    (leBytes 8 key.length ++ (key ++ (leBytes 8 value.length ++ value)))

def nodeHash (left right : Hash256) : Hash256 :=
  domainHash H (ascii "astrolune.state.node.v1") (left.1 ++ right.1)

def rootHash (count : Nat) (top : Hash256) : Hash256 :=
  domainHash H (ascii "astrolune.state.v1") (leBytes 8 count ++ top.1)

end Commitment

abbrev StateMap := OrderedMap StateKey Bytes

/-- A subtree. The fields that the source caches in each node are computed from its leaves. -/
inductive Node where
  | leaf (key : StateKey) (value : Bytes)
  | branch (left right : Node)
  deriving DecidableEq

namespace Node

def lastKey : Node → StateKey
  | leaf key _ => key
  | branch _ right => right.lastKey

def count : Node → Nat
  | leaf _ _ => 1
  | branch left right => left.count + right.count

def bytes : Node → Nat
  | leaf key value => entrySize key value
  | branch left right => left.bytes + right.bytes

def hash (H : Hasher) : Node → Hash256
  | leaf key value => leafHash H key value
  | branch left right => nodeHash H (left.hash H) (right.hash H)

def entries : Node → List (StateKey × Bytes)
  | leaf key value => [(key, value)]
  | branch left right => left.entries ++ right.entries

def get (key : StateKey) : Node → Option Bytes
  | leaf last value => if key = last then some value else none
  | branch left right => if key ≤ left.lastKey then left.get key else right.get key

def split (left : Node) (writes : List (StateKey × Bytes)) :
    List (StateKey × Bytes) × List (StateKey × Bytes) :=
  (writes.takeWhile (·.1 ≤ left.lastKey), writes.dropWhile (·.1 ≤ left.lastKey))

/-- New values for existing keys; the shape of the subtree stays. -/
def replace : Node → List (StateKey × Bytes) → Node
  | leaf key value, [] => leaf key value
  | leaf key _, write :: _ => leaf key write.2
  | branch left right, writes =>
    if writes = [] then branch left right
    else branch (left.replace (left.split writes).1) (right.replace (left.split writes).2)

end Node

structure Tree where
  root : Option Node
  deriving DecidableEq

namespace Tree

def fromMap (data : StateMap) : Tree :=
  ⟨collapse .branch data.entries.length (data.entries.map fun e => .leaf e.1 e.2)⟩

def entries (t : Tree) : List (StateKey × Bytes) := t.root.elim [] Node.entries

def toMap (t : Tree) : StateMap := t.entries.foldl (fun m e => m.insert e.1 e.2) .empty

def len (t : Tree) : Nat := t.root.elim 0 Node.count

def hash (H : Hasher) (t : Tree) : Hash256 :=
  rootHash H t.len (t.root.elim Hash256.zero (Node.hash H))

def get (t : Tree) (key : StateKey) : Option Bytes := t.root.bind (Node.get key)

/-- The final values of writes to existing keys, or `none` as soon as a change would add or
remove a key. Every bound is checked in the order of the changes. -/
def planWrites (t : Tree) : List StateChange → Nat → StateMap → Except StateError (Option StateMap)
  | [], _, writes => .ok (some writes)
  | .put key value :: rest, bytes, writes => do
    ensure .limitExceeded (key.length ≤ maxStateKeyBytes)
    ensure .limitExceeded (value.length ≤ maxStateValueBytes)
    match t.get key with
    | none => .ok none
    | some original => do
      let size := bytes - ((writes.get key).getD original).length + value.length
      ensure .limitExceeded (size ≤ maxSnapshotBytes)
      planWrites t rest size (writes.insert key value)
  | .delete key :: rest, bytes, writes => do
    ensure .limitExceeded (key.length ≤ maxStateKeyBytes)
    if (t.get key).isSome then .ok none else planWrites t rest bytes writes

def prepare (t : Tree) (diffs : List StateDiff) : Except StateError (Option Tree) := do
  let planned ← t.planWrites (diffs.flatMap StateDiff.changes)
    (headerBytes + t.root.elim 0 Node.bytes) .empty
  return planned.map fun writes => ⟨t.root.map (·.replace writes.entries)⟩

end Tree

def stageChange (acc : StateMap × Nat) : StateChange → Except StateError (StateMap × Nat)
  | .put key value => do
    ensure .limitExceeded (key.length ≤ maxStateKeyBytes)
    ensure .limitExceeded (value.length ≤ maxStateValueBytes)
    let size := acc.2 - (acc.1.get key).elim 0 (entrySize key) + entrySize key value
    ensure .limitExceeded (¬(maxSnapshotBytes < size ∨
      (acc.1.get key = none ∧ acc.1.entries.length = maxStateEntries)))
    return (acc.1.insert key value, size)
  | .delete key => do
    ensure .limitExceeded (key.length ≤ maxStateKeyBytes)
    return (acc.1.erase key, acc.2 - (acc.1.get key).elim 0 (entrySize key))

def encodedSize (data : StateMap) : Nat := headerBytes + data.total entrySize

def stage (data : StateMap) (diffs : List StateDiff) : Except StateError StateMap := do
  let (next, _) ← (diffs.flatMap StateDiff.changes).foldlM stageChange (data, encodedSize data)
  return next

def Tree.transition (t : Tree) (diffs : List StateDiff) : Except StateError Tree := do
  match ← t.prepare diffs with
  | some next => return next
  | none => return Tree.fromMap (← stage t.toMap diffs)

def applyChange (data : StateMap) : StateChange → StateMap
  | .put key value => data.insert key value
  | .delete key => data.erase key

def applyTo (changes : List StateChange) (data : StateMap) : StateMap :=
  changes.foldl applyChange data

end Astrolune.State
