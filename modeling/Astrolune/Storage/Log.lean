import Astrolune.Lib.FileSystem
import Astrolune.Storage.Recent
import Astrolune.Storage.Retention
import Astrolune.Storage.RoundTrip

namespace Astrolune.Storage
open Lib Codec State

inductive LogFile where
  | log
  | head
  | pending
  | compact
  | swap
  | retain
  | retainPending
  deriving DecidableEq

def logMagic : Bytes := ascii "ASTLOG01"
def headerSize : Nat := 40
def headBytesLength : Nat := 80
def frameOverhead : Nat := 40
def logDomain : Bytes := ascii "astrolune.storage.log.v1"
def headDomain : Bytes := ascii "astrolune.storage.head.v1"

structure Location where
  offset : Nat
  endOffset : Nat
  previous : Hash256
  hash : Hash256
  deriving DecidableEq

/-- The log in memory. `file` is the open file itself, whatever name it has by now. -/
structure AppendOnlyStorage where
  file : Nat
  endOffset : Nat
  tip : Hash256
  state : InMemoryState
  checkpoint : Option Checkpoint
  anchor : Option Checkpoint
  index : OrderedMap Nat Location
  transactions : RecentTransactions
  history : StateHistory
  policy : RetentionPolicy
  retention : Option RetentionRecord
  retentionError : Option StorageError
  poisoned : Bool

structure StoredReceipts where
  header : BlockHeader
  certificate : Bytes
  effects : BlockEffects
  deriving DecidableEq

abbrev LogDisk := Disk LogFile

abbrev DiskIo (α : Type) := Io LogDisk StorageError α

/-- What a log instance has: its file system and its fields. -/
abbrev LogState := LogDisk × AppendOnlyStorage

abbrev LogIo (α : Type) := Io LogState StorageError α

def mapStateError : StateError → StorageError
  | .staleSnapshot => .invalidOrder
  | .rootMismatch => .verificationFailed
  | .limitExceeded => .limitExceeded
  | .io | .locked | .durabilityUnknown => .io
  | .corrupt | .leaseViolation => .corrupt

section Pure

variable (H : Hasher)

def initialTip : Hash256 := domainHash H logDomain logMagic

def frameHash (previous : Hash256) (payload : Bytes) : Hash256 :=
  domainHash H logDomain (previous.1 ++ (leBytes 8 payload.length ++ payload))

def headBody (endOffset : Nat) (tip : Hash256) : Bytes :=
  logMagic ++ (leBytes 8 endOffset ++ tip.1)

def headBytes (endOffset : Nat) (tip : Hash256) : Bytes :=
  headBody endOffset tip ++ (domainHash H headDomain (headBody endOffset tip)).1

/-- The checks of `read_head_at` on the bytes it has read. -/
def parseHead (bytes : Bytes) : Except StorageError (Nat × Hash256) :=
  if h : bytes.length = headBytesLength ∧ bytes.take 8 = logMagic ∧
      (domainHash H headDomain (bytes.take 48)).1 = bytes.drop 48 then
    .ok (numberAt bytes 8, hashAt bytes 16 (by rw [h.1]; decide))
  else .error .corrupt

def nextPosition : Option Checkpoint → Except StorageError (UInt64 × Hash256)
  | some cp => do
    ensure .invalidOrder (cp.height.toNat + 1 < 2 ^ 64)
    return (cp.height + 1, cp.block)
  | none => .ok (0, Hash256.zero)

def prepareBatch (b : CommitBatch) (current : Option Checkpoint) (state : InMemoryState) :
    Except StorageError (Checkpoint × InMemoryState) := do
  let (height, parent) ← nextPosition current
  ensure .invalidOrder (b.block.header.height = height ∧ b.block.header.parent = parent)
  let next ← (state.prepare H (state.root H) b.stateDiffs).mapError mapStateError
  ensure .verificationFailed (next.root H = b.block.header.stateRoot)
  return (⟨height, b.block.header.computeHash H, next.root H⟩, next)

def applyRecord (r : Record) (current : Option Checkpoint) (state : InMemoryState) :
    Except StorageError (Checkpoint × InMemoryState) :=
  match r, current with
  | .anchor cp state, none => .ok (cp, state)
  | .batch b, current => prepareBatch H b current state
  | .anchor _ _, some _ => .error .corrupt

end Pure

section Files

variable (H : Hasher)

def removeAbsentOk (n : LogFile) : DiskIo Unit := do
  match ← Io.attempt (Disk.remove n) with
  | .ok () => pure ()
  | .error .notFound => pure ()
  | .error _ => Io.fail .io

/-- `symlink_metadata(..).is_ok()`. -/
def present (n : LogFile) : DiskIo Bool := do
  match ← Io.attempt (Disk.metadata n) with
  | .ok () => return true
  | .error _ => return false

def readHeadAt (n : LogFile) : DiskIo (Nat × Hash256) := do
  let file ← Io.failingAs .corrupt (Disk.openFile n)
  let bytes ← Io.failingAs .io (Disk.readToEnd file (headBytesLength + 1))
  Io.give (parseHead H bytes)

def writeNewSynced (n : LogFile) (bytes : Bytes) : DiskIo Unit := do
  let file ← Io.failingAs .io (Disk.create n)
  Io.failingAs .io (Disk.writeAt file 0 bytes)
  Io.failingAs .io (Disk.syncAll file)

def readFrame (file offset endOffset : Nat) (previous : Hash256) : DiskIo (Bytes × Location) := do
  Io.give (ensure .corrupt (frameOverhead ≤ endOffset - offset))
  Io.failingAs .io Disk.seek
  let size ← Io.failingAs .corrupt (Disk.readAt file offset 8)
  Io.give (ensure .corrupt
    (leNat size ≤ maxRecordBytes ∧ leNat size ≤ endOffset - offset - frameOverhead))
  let payload ← Io.failingAs .corrupt (Disk.readAt file (offset + 8) (leNat size))
  let hash ← Io.failingAs .corrupt (Disk.readAt file (offset + 8 + leNat size) 32)
  Io.give (ensure .corrupt ((frameHash H previous payload).1 = hash))
  return (payload, { offset, endOffset := offset + leNat size + frameOverhead, previous,
                     hash := frameHash H previous payload })

def readRecordAt (file offset endOffset : Nat) (previous : Hash256) :
    DiskIo (Record × Location) := do
  let (payload, location) ← readFrame H file offset endOffset previous
  let record ← Io.give (Record.decode H payload)
  return (record, location)

def writeFrame (file offset : Nat) (payload : Bytes) (digest : Hash256) : DiskIo Unit := do
  Io.failingAs .io (Disk.writeAt file offset (leBytes 8 payload.length))
  Io.failingAs .io (Disk.writeAt file (offset + 8) payload)
  Io.failingAs .io (Disk.writeAt file (offset + 8 + payload.length) digest.1)

def writeHeader (file : Nat) : DiskIo Unit := do
  Io.failingAs .io (Disk.writeAt file 0 logMagic)
  Io.failingAs .io (Disk.writeAt file 8 (initialTip H).1)

def checkHeader (file : Nat) : DiskIo Unit := do
  let header ← Io.failingAs .corrupt (Disk.readAt file 0 headerSize)
  Io.give (ensure .corrupt (header.take 8 = logMagic ∧ header.drop 8 = (initialTip H).1))

/-- One frame of a replacement, within its budget: the new end and tip. -/
def appendFrame (file endOffset : Nat) (tip : Hash256) (payload : Bytes) (budget : Nat) :
    DiskIo (Nat × Hash256) := do
  let next ← Io.give (okOr .limitExceeded (checkedAdd64 endOffset (frameOverhead + payload.length)))
  Io.give (ensure .limitExceeded (next - headerSize ≤ budget))
  writeFrame file endOffset payload (frameHash H tip payload)
  return (next, frameHash H tip payload)

/-- The frames up to `endOffset`. Each takes up bytes, so `fuel` is never short of them. -/
def verifyLoop (file endOffset : Nat) : Nat → Nat → Hash256 → DiskIo (Nat × Hash256)
  | 0, offset, previous => pure (offset, previous)
  | fuel+1, offset, previous =>
    if offset < endOffset then do
      let (_, location) ← readFrame H file offset endOffset previous
      verifyLoop file endOffset fuel location.endOffset location.hash
    else pure (offset, previous)

def verifyFrames (n : LogFile) (endOffset : Nat) (tip : Hash256) : DiskIo Unit := do
  Io.give (ensure .corrupt (headerSize ≤ endOffset))
  let file ← Io.failingAs .corrupt (Disk.openFile n)
  let length ← Io.failingAs .io (Disk.fileLength file)
  Io.give (ensure .corrupt (endOffset ≤ length))
  checkHeader H file
  let (offset, previous) ← verifyLoop H file endOffset endOffset headerSize (initialTip H)
  Io.give (ensure .corrupt (offset = endOffset ∧ previous = tip))

def discardCompaction : DiskIo Unit := do
  removeAbsentOk .compact
  removeAbsentOk .swap
  removeAbsentOk .retainPending

def renameIf (staged : Bool) (a b : LogFile) : DiskIo Unit :=
  if staged then Io.failingAs .io (Disk.rename a b) else pure ()

def completeCompaction (endOffset : Nat) (tip : Hash256) : DiskIo Unit := do
  let staged ← present .compact
  verifyFrames H (if staged then .compact else .log) endOffset tip
  renameIf staged .compact .log
  let stagedRecord ← present .retainPending
  renameIf stagedRecord .retainPending .retain
  Io.failingAs .io (Disk.rename .swap .head)
  Io.failingAs .io Disk.syncDir

def finishCompaction : DiskIo Unit := do
  match ← Io.attempt (readHeadAt H .swap) with
  | .ok (endOffset, tip) => completeCompaction H endOffset tip
  | .error _ => discardCompaction

def readRetention : DiskIo (Option RetentionRecord) := do
  match ← Io.attempt (Disk.openFile .retain) with
  | .ok file => do
    let bytes ← Io.failingAs .io (Disk.readToEnd file (retentionRecordBytes + 1))
    return (RetentionRecord.fromBytes H bytes).toOption
  | .error .notFound => return none
  | .error _ => Io.fail .io

end Files

namespace AppendOnlyStorage

def self : LogIo AppendOnlyStorage := Io.read Prod.snd

def update (f : AppendOnlyStorage → AppendOnlyStorage) : LogIo Unit :=
  Io.modify fun s => (s.1, f s.2)

def poison : LogIo Unit := update fun log => { log with poisoned := true }

def ready : LogIo Unit := do
  let log ← self
  Io.give (ensure .durabilityUnknown (log.poisoned = false))

def poisonUnless (p : Prop) [Decidable p] : LogIo Unit :=
  if p then pure ()
  else do
    poison
    Io.fail .corrupt

def checkRetention (log : AppendOnlyStorage) : Except StorageError Unit :=
  match log.retention with
  | none => .ok ()
  | some record =>
    match log.anchor with
    | none => .error .corrupt
    | some anchor => do
      ensure .corrupt (anchor.height ≤ record.floor)
      ensure .corrupt (record.floor = anchor.height →
        record.block = anchor.block ∧ record.stateRoot = anchor.stateRoot)

/-- One record of the published part: indexed, applied, and the new end of the log. -/
def replayed (H : Hasher) (log : AppendOnlyStorage) (record : Record)
    (location : Location) (cp : Checkpoint) (state : InMemoryState) : AppendOnlyStorage :=
  { log with
    endOffset := location.endOffset
    tip := location.hash
    state := state
    checkpoint := some cp
    anchor := if log.checkpoint.isNone then some cp else log.anchor
    index :=
      match record with
      | .batch b => log.index.insert b.block.header.height.toNat location
      | .anchor _ _ => log.index
    transactions :=
      match record with
      | .batch b => log.transactions.insert H b.block
      | .anchor _ _ => log.transactions
    history :=
      match record with
      | .batch b => log.history.record log.checkpoint cp log.state b.stateDiffs
      | .anchor _ _ => log.history }

section Methods

variable (H : Hasher)

/-- The published records up to `endOffset`. Each takes up bytes, so `fuel` is never short. -/
def replayLoop (endOffset : Nat) : Nat → LogIo Unit
  | 0 => pure ()
  | fuel+1 => do
    let log ← self
    if log.endOffset < endOffset then do
      let (record, location) ←
        Io.outer (readRecordAt H log.file log.endOffset endOffset log.tip)
      let (cp, state) ← Io.give (applyRecord H record log.checkpoint log.state)
      update fun log => log.replayed H record location cp state
      replayLoop endOffset fuel
    else pure ()

def trimTail (file endOffset : Nat) : DiskIo Unit := do
  Io.failingAs .io (Disk.setLen file endOffset)
  Io.failingAs .io (Disk.syncAll file)
  let head ← Io.failingAs .io (Disk.openFile .head)
  Io.failingAs .io (Disk.syncAll head)
  Io.failingAs .io Disk.syncDir

def replayPublished : LogIo Unit := do
  let (endOffset, tip) ← Io.outer (readHeadAt H .head)
  Io.give (ensure .corrupt (headerSize ≤ endOffset))
  let log ← self
  let length ← Io.outer (Io.failingAs .io (Disk.fileLength log.file))
  Io.give (ensure .corrupt (endOffset ≤ length))
  replayLoop H endOffset endOffset
  let log ← self
  Io.give (ensure .corrupt (log.endOffset = endOffset ∧ log.tip = tip))
  Io.give log.checkRetention
  Io.outer (trimTail log.file endOffset)

def publishHead (endOffset : Nat) (tip : Hash256) : LogIo Unit := do
  Io.outer (writeNewSynced .pending (headBytes H endOffset tip))
  Io.outer (Io.failingAs .io (Disk.rename .pending .head))
  match ← Io.attempt (Io.outer Disk.syncDir) with
  | .ok () => pure ()
  | .error _ => do
    poison
    Io.fail .durabilityUnknown

/-- The part of `append` whose failure is rolled back. -/
def writeAndPublish (log : AppendOnlyStorage) (payload : Bytes) (endOffset : Nat)
    (digest : Hash256) : LogIo Unit := do
  Io.outer (Io.failingAs .io Disk.seek)
  Io.outer (writeFrame log.file log.endOffset payload digest)
  Io.outer (Io.failingAs .io (Disk.syncAll log.file))
  publishHead H endOffset digest

def cutBack (file endOffset : Nat) : Io LogDisk Fault Unit := do
  Disk.setLen file endOffset
  Disk.syncAll file

def rollback (error : StorageError) : LogIo Location := do
  let log ← self
  if log.poisoned then Io.fail .durabilityUnknown
  else
    match ← Io.attempt (Io.outer (cutBack log.file log.endOffset)) with
    | .ok () => Io.fail error
    | .error _ => do
      poison
      Io.fail .durabilityUnknown

def append (payload : Bytes) : LogIo Location := do
  ready
  Io.outer (removeAbsentOk .pending)
  let log ← self
  let length ← Io.outer (Io.failingAs .io (Disk.fileLength log.file))
  poisonUnless (length = log.endOffset)
  let head ← Io.outer (readHeadAt H .head)
  poisonUnless (head = (log.endOffset, log.tip))
  let endOffset ← Io.give
    (okOr .limitExceeded (checkedAdd64 log.endOffset (frameOverhead + payload.length)))
  let digest := frameHash H log.tip payload
  match ← Io.attempt (writeAndPublish H log payload endOffset digest) with
  | .error error => rollback error
  | .ok () => do
    update fun log => { log with endOffset, tip := digest }
    return { offset := log.endOffset, endOffset, previous := log.tip, hash := digest }

structure Replacement where
  file : Nat
  endOffset : Nat
  tip : Hash256
  index : OrderedMap Nat Location

def copyFrames (log : AppendOnlyStorage) (source budget : Nat) :
    List Nat → Replacement → DiskIo Replacement
  | [], r => pure r
  | height :: rest, r => do
    let location ← Io.give (okOr .corrupt (log.index.get height))
    let (payload, actual) ←
      readFrame H source location.offset location.endOffset location.previous
    Io.give (ensure .corrupt
      (actual.hash = location.hash ∧ actual.endOffset = location.endOffset))
    let (endOffset, tip) ← appendFrame H r.file r.endOffset r.tip payload budget
    copyFrames log source budget rest
      { r with endOffset, tip, index := r.index.insert height ⟨r.endOffset, endOffset, r.tip, tip⟩ }

def heightsAbove (cp head : Checkpoint) : List Nat :=
  List.range' (cp.height.toNat + 1) (head.height.toNat - cp.height.toNat)

def writeReplacement (log : AppendOnlyStorage) (head cp : Checkpoint) (state : InMemoryState)
    (budget : Nat) : DiskIo Replacement := do
  let file ← Io.failingAs .io (Disk.create .compact)
  writeHeader H file
  let payload ← Io.give (encodeAnchor H cp state)
  let (endOffset, tip) ←
    appendFrame H file headerSize (initialTip H) payload budget
  let source ← Io.failingAs .io (Disk.openFile .log)
  let r ← copyFrames H log source budget (heightsAbove cp head)
    ⟨file, endOffset, tip, .empty⟩
  Io.failingAs .io (Disk.syncAll file)
  Io.failingAs .io Disk.syncDir
  return r

def stage (log : AppendOnlyStorage) (head cp : Checkpoint) (state : InMemoryState)
    (record : RetentionRecord) (budget : Nat) : DiskIo Replacement := do
  let r ← writeReplacement H log head cp state budget
  writeNewSynced .retainPending (record.toBytes H)
  Io.failingAs .io Disk.syncDir
  writeNewSynced .swap (headBytes H r.endOffset r.tip)
  Io.failingAs .io Disk.syncDir
  return r

def swapFiles : Io LogDisk Fault Unit := do
  Disk.rename .compact .log
  Disk.rename .retainPending .retain
  Disk.rename .swap .head
  Disk.syncDir

def publishReplacement (r : Replacement) (record : RetentionRecord) (cp : Checkpoint)
    (floor : UInt64) : LogIo Unit := do
  update fun log => { log with file := r.file }
  match ← Io.attempt (Io.outer swapFiles) with
  | .error _ => do
    poison
    Io.fail .durabilityUnknown
  | .ok () => update fun log => { log with
      endOffset := r.endOffset
      tip := r.tip
      index := r.index
      anchor := some cp
      retention := some record
      history := log.history.truncateBelow floor
      transactions := log.transactions.prune (floor + 1) }

def nextRecord (log : AppendOnlyStorage) (floor : UInt64) (cp : Checkpoint) : RetentionRecord :=
  let compactions := (log.retention.map (·.compactions)).getD 0
  { floor
    compactions := if compactions.toNat + 1 < 2 ^ 64 then compactions + 1 else compactions
    block := cp.block
    stateRoot := cp.stateRoot }

def compactTo (log : AppendOnlyStorage) (head cp : Checkpoint) (state : InMemoryState)
    (floor : UInt64) (budget : Nat) : LogIo Unit := do
  let marked ← Io.outer (present .swap)
  Io.give (ensure .corrupt (marked = false))
  Io.outer (removeAbsentOk .compact)
  Io.outer (removeAbsentOk .retainPending)
  let record := log.nextRecord floor cp
  match ← Io.attempt (Io.outer (stage H log head cp state record budget)) with
  | .ok r => publishReplacement r record cp floor
  | .error error => do
    Io.outer (removeAbsentOk .compact)
    Io.outer (removeAbsentOk .retainPending)
    Io.fail error

/-- Replaces the log by an anchor at `floor` and the bodies above it. -/
def compact (floor : UInt64) (budget : Nat) : LogIo Unit := do
  ready
  let log ← self
  let head ← Io.give (okOr .invalidOrder log.checkpoint)
  let anchor ← Io.give (okOr .corrupt log.anchor)
  Io.give (ensure .invalidOrder (floor ≤ head.height))
  if floor ≤ anchor.height then pure ()
  else do
    Io.give (ensure .limitExceeded (minRetainedBlocks ≤ head.height - floor))
    let found ← Io.give (log.history.read H floor log.checkpoint log.state)
    let (cp, state) ← Io.give (okOr .limitExceeded found)
    compactTo H log head cp state floor budget

def dueFloor (log : AppendOnlyStorage) : Option UInt64 :=
  if log.policy.isEnabled then do
    let head ← log.checkpoint
    let anchor ← log.anchor
    log.policy.targetFloor anchor.height head.height
  else none

def evaluateRetention : LogIo Unit := do
  let log ← self
  match log.dueFloor with
  | none => pure ()
  | some target =>
    match ← Io.attempt (compact H target log.policy.maxCompactionBytes) with
    | .ok () => update fun log => { log with retentionError := none }
    | .error error => update fun log => { log with retentionError := some error }

def installAnchor (cp : Checkpoint) (state : InMemoryState) : LogIo Checkpoint := do
  ready
  let log ← self
  Io.give (ensure .invalidOrder (log.checkpoint.isNone))
  Io.give (ensure .verificationFailed
    (cp.block ≠ Hash256.zero ∧ cp.stateRoot = state.root H))
  let payload ← Io.give (encodeAnchor H cp state)
  let _ ← append H payload
  update fun log => { log with checkpoint := some cp, anchor := some cp, state }
  return cp

def committed (log : AppendOnlyStorage) (b : CommitBatch) (cp : Checkpoint) (state : InMemoryState)
    (location : Location) : AppendOnlyStorage :=
  { log with
    history := log.history.record log.checkpoint cp log.state b.stateDiffs
    index := log.index.insert cp.height.toNat location
    transactions := log.transactions.insert H b.block
    anchor := if log.checkpoint.isNone then some cp else log.anchor
    checkpoint := some cp
    state := state }

def commit (b : CommitBatch) : LogIo Checkpoint := do
  ready
  let payload ← Io.give (encodeBatch H b)
  let log ← self
  let (cp, state) ← Io.give (prepareBatch H b log.checkpoint log.state)
  let location ← append H payload
  update fun log => log.committed H b cp state location
  evaluateRetention H
  return cp

def setRetentionPolicy (policy : RetentionPolicy) : LogIo Unit :=
  update fun log => { log with policy }

def prune (before : UInt64) : LogIo Unit := do
  ready
  let log ← self
  if log.checkpoint.isNone then pure ()
  else compact H before maxCompactionBytes

def unread (file : Nat) (retention : Option RetentionRecord) : AppendOnlyStorage where
  file := file
  endOffset := headerSize
  tip := initialTip H
  state := InMemoryState.new
  checkpoint := none
  anchor := none
  index := .empty
  transactions := .default
  history := .default
  policy := .disabled
  retention := retention
  retentionError := none
  poisoned := false

def openExisting (file : Nat) (retention : Option RetentionRecord) : DiskIo AppendOnlyStorage := do
  checkHeader H file
  let (_, log) ← Io.supply (unread H file retention) (replayPublished H)
  return log

def publishFirst : LogIo Unit := do
  Io.outer (removeAbsentOk .pending)
  publishHead H headerSize (initialTip H)

def createLog (retention : Option RetentionRecord) : DiskIo AppendOnlyStorage := do
  let file ← Io.failingAs .io (Disk.create .log)
  writeHeader H file
  Io.failingAs .io (Disk.syncAll file)
  let (_, log) ← Io.supply (unread H file retention) (publishFirst H)
  return log

def openNew (retention : Option RetentionRecord) : DiskIo AppendOnlyStorage := do
  match ← Io.attempt (Disk.metadata .head) with
  | .error .notFound => createLog H retention
  | _ => Io.fail .corrupt

def openLog : DiskIo AppendOnlyStorage := do
  finishCompaction H
  let retention ← readRetention H
  match ← Io.attempt (Disk.openFile .log) with
  | .ok file => openExisting H file retention
  | .error .notFound => openNew H retention
  | .error _ => Io.fail .io

def blockCount (log : AppendOnlyStorage) : Nat := log.index.entries.length

def retainedFloor (log : AppendOnlyStorage) : Option UInt64 := log.anchor.map (·.height)

def historyFloor (log : AppendOnlyStorage) : Option UInt64 :=
  log.checkpoint.map fun cp => log.history.floor cp.height

def transactionLocation (log : AppendOnlyStorage) (id : Hash256) : Option Place :=
  log.transactions.get id

def readStateAt (height : UInt64) : LogIo (Option (Checkpoint × InMemoryState)) := do
  ready
  let log ← self
  Io.give (log.history.read H height log.checkpoint log.state)

def readAnchor : LogIo (Option (Checkpoint × InMemoryState)) := do
  ready
  let log ← self
  if log.endOffset = headerSize then return none
  else do
    let file ← Io.outer (Io.failingAs .io (Disk.openFile .log))
    let (record, _) ←
      Io.outer (readRecordAt H file headerSize log.endOffset (initialTip H))
    match record with
    | .anchor cp state => do
      Io.give (ensure .corrupt (cp.stateRoot = state.root H))
      return some (cp, state)
    | .batch _ => Io.fail .corrupt

def readBatchAt (height : UInt64) : LogIo (Option CommitBatch) := do
  ready
  let log ← self
  match log.index.get height.toNat with
  | none => return none
  | some location => do
    let file ← Io.outer (Io.failingAs .io (Disk.openFile .log))
    let (record, actual) ← Io.outer
      (readRecordAt H file location.offset location.endOffset location.previous)
    Io.give (ensure .corrupt
      (actual.hash = location.hash ∧ actual.endOffset = location.endOffset))
    match record with
    | .batch b => do
      Io.give (ensure .corrupt (b.block.header.height = height))
      return some b
    | .anchor _ _ => Io.fail .corrupt

def readFinalized (height : UInt64) : LogIo (Option (Block × Bytes)) := do
  let found ← readBatchAt H height
  return found.map fun b => (b.block, b.finalityCertificate)

def readReceipts (height : UInt64) : LogIo (Option StoredReceipts) := do
  let found ← readBatchAt H height
  return found.bind fun b => b.effects.map fun effects =>
    { header := b.block.header, certificate := b.finalityCertificate, effects }

end Methods
end AppendOnlyStorage
end Astrolune.Storage
