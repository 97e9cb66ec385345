import Astrolune.Storage.Effects

namespace Astrolune.Storage
open Lib Codec State Decoder Reader

structure Checkpoint where
  height : UInt64
  block : Hash256
  stateRoot : Hash256
  deriving DecidableEq

structure CommitBatch where
  block : Block
  finalityCertificate : Bytes
  stateDiffs : List StateDiff
  effects : Option BlockEffects
  deriving DecidableEq

inductive Record where
  | anchor (checkpoint : Checkpoint) (state : InMemoryState)
  | batch (batch : CommitBatch)

def maxTransactions : Nat := 65536
def maxTransactionBytes : Nat := 4 * 1024 * 1024
def maxCertificateBytes : Nat := 1024 * 1024
def maxArchiveBytes : Nat := 256 * 1024 * 1024
def maxRecordBytes : Nat := 72 * 1024 * 1024
def maxChanges : Nat := 1048576

section Encode

variable (H : Hasher)

/-- One transaction of `validate_block`, with the size of the archive that would hold them. -/
def checkTransaction (size : Nat) (tx : Transaction) : Except StorageError Nat := do
  ensure .verificationFailed (tx.version = transactionVersion)
  ensure .limitExceeded (tx.accessList.length ≤ maxListLen ∧
    (∀ key ∈ tx.accessList, key.length ≤ maxStateKeyLen) ∧ tx.payload.length ≤ maxPayload ∧
    tx.estimateEncodedLen ≤ maxTransactionBytes)
  let next ← okOr .limitExceeded (checkedAdd64 size (tx.estimateEncodedLen + 8))
  ensure .limitExceeded (next ≤ maxArchiveBytes)
  return next

def validateBlock (block : Block) (certificate : Bytes) : Except StorageError Unit := do
  ensure .limitExceeded (block.transactions.length ≤ maxTransactions ∧
    certificate.length ≤ maxCertificateBytes)
  let _ ← block.transactions.foldlM checkTransaction 200
  ensure .verificationFailed (merkleRoot H
    (block.transactions.map (·.computeTxId H)) = block.header.transactionsRoot)

def write (out bytes : Bytes) : Except StorageError Bytes := do
  ensure .limitExceeded (bytes.length ≤ maxRecordBytes - out.length)
  return out ++ bytes

def writeNumber (out : Bytes) (n : Nat) : Except StorageError Bytes := write out (leBytes 8 n)

def writeBlob (out bytes : Bytes) : Except StorageError Bytes := do
  let out ← writeNumber out bytes.length
  write out bytes

def encodeAnchor (cp : Checkpoint) (state : InMemoryState) : Except StorageError Bytes := do
  let out ← write [0] (u64Bytes cp.height)
  let out ← write out cp.block.1
  let out ← write out cp.stateRoot.1
  writeBlob out (state.exportSnapshot H)

def writeChange (out : Bytes) : StateChange → Except StorageError Bytes
  | .put key value => do
    ensure .limitExceeded (key.length ≤ maxStateKeyBytes)
    let out ← write out [1]
    let out ← writeBlob out key
    ensure .limitExceeded (value.length ≤ maxStateValueBytes)
    writeBlob out value
  | .delete key => do
    ensure .limitExceeded (key.length ≤ maxStateKeyBytes)
    let out ← write out [2]
    writeBlob out key

def writeDiff (acc : Bytes × Nat) (diff : StateDiff) : Except StorageError (Bytes × Nat) := do
  let total ← okOr .limitExceeded (checkedAdd64 acc.2 diff.changes.length)
  ensure .limitExceeded (total ≤ maxChanges)
  let out ← writeNumber acc.1 diff.changes.length
  let out ← diff.changes.foldlM writeChange out
  return (out, total)

def writeEffects (out : Bytes) : Option BlockEffects → Except StorageError Bytes
  | none => .ok out
  | some effects => do writeBlob out (← effects.toBytes)

def encodeBatch (b : CommitBatch) : Except StorageError Bytes := do
  validateBlock H b.block b.finalityCertificate
  b.effects.forM fun effects => effects.validate H b.block
  let out ← write [if b.effects.isSome then 2 else 1] b.block.header.canonicalBytes
  let out ← writeNumber out b.block.transactions.length
  let out ← b.block.transactions.foldlM (fun out tx => writeBlob out tx.toBytes) out
  let out ← writeBlob out b.finalityCertificate
  ensure .limitExceeded (b.stateDiffs.length ≤ maxChanges)
  let out ← writeNumber out b.stateDiffs.length
  let (out, _) ← b.stateDiffs.foldlM writeDiff (out, 0)
  writeEffects out b.effects

def Record.encode : Record → Except StorageError Bytes
  | .anchor cp state => encodeAnchor H cp state
  | .batch b => encodeBatch H b

end Encode

section Decode

variable (H : Hasher)

def readLength (limit : Nat) : Decoder Nat := do
  let value ← readU64
  check .limitExceeded (value.toNat ≤ limit)
  return value.toNat

def readBlob (limit : Nat) : Decoder Bytes := do
  let size ← readLength limit
  readExact size

def readTransaction : Decoder Transaction := do
  let bytes ← readBlob maxTransactionBytes
  give (Transaction.decode bytes)

def readBlock : Decoder Block := do
  let bytes ← readExact 200
  let header ← give (whole BlockHeader.read bytes)
  let count ← readLength maxTransactions
  let remaining ← remaining
  check .truncated (count ≤ remaining / 150)
  let transactions ← many readTransaction count
  return { header, transactions }

def readValue (tag : UInt8) (key : StateKey) : Decoder StateChange :=
  if tag = 1 then do return .put key (← readBlob maxStateValueBytes)
  else if tag = 2 then return .delete key
  else give (.error .nonCanonical)

def readChange : Decoder StateChange := do
  let tag ← readU8
  let key ← readBlob maxStateKeyBytes
  readValue tag key

def readDiffs : Nat → Nat → Decoder (List StateDiff)
  | 0, _ => pure []
  | count+1, total => do
    let changes ← readLength (maxChanges - total)
    let remaining ← remaining
    check .truncated (changes ≤ remaining / 9)
    let diff ← many readChange changes
    let rest ← readDiffs count (total + changes)
    return ⟨diff⟩ :: rest

def readAnchor : Decoder Record := do
  let height ← readU64
  let block ← readFixed 32
  let stateRoot ← readFixed 32
  check .nonCanonical (block ≠ Hash256.zero)
  let snapshot ← readBlob maxSnapshotBytes
  let state ← give
    (failAs .nonCanonical (InMemoryState.fromSnapshot H snapshot stateRoot))
  return .anchor { height, block, stateRoot } state

def readEffects (block : Block) (tag : UInt8) : Decoder (Option BlockEffects) :=
  if tag = 2 then do
    let bytes ← readBlob maxReceiptsBytes
    let effects ← give (failAs .nonCanonical (BlockEffects.fromBytes bytes))
    give (failAs .nonCanonical (effects.validate H block))
    return some effects
  else return none

def readBatch (tag : UInt8) : Decoder Record := do
  let block ← readBlock
  let finalityCertificate ← readBlob maxCertificateBytes
  give (failAs .nonCanonical (validateBlock H block finalityCertificate))
  let count ← readLength maxChanges
  let remaining ← remaining
  check .truncated (count ≤ remaining / 8)
  let stateDiffs ← readDiffs count 0
  let effects ← readEffects H block tag
  return .batch { block, finalityCertificate, stateDiffs, effects }

def readRecord : Decoder Record := do
  let tag ← readU8
  if tag = 0 then readAnchor H
  else if tag = 1 ∨ tag = 2 then readBatch H tag
  else give (.error .nonCanonical)

def Record.decode (bytes : Bytes) : Except StorageError Record := do
  ensure .limitExceeded (bytes.length ≤ maxRecordBytes)
  failAs .corrupt (whole (readRecord H) bytes)

end Decode
end Astrolune.Storage
