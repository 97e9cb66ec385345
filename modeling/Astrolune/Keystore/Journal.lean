import Astrolune.Lib.File
import Astrolune.Keystore.Rollover

namespace Astrolune.Keystore
open Lib Codec

def maxRolloverJournalBytes : Nat := maxProtectedJournalBytes + Rollover.extensionBytes

structure JournalState where
  sequence : Nat
  position : Option SigningPosition
  message : Hash256
  tip : Hash256
  deriving DecidableEq

@[ext] structure Chain where
  tip : Hash256
  last : Option (SigningPosition × Hash256)
  previous : Option JournalState
  safety : Option SigningSafety

@[ext] structure Journal extends Chain where
  count : Nat
  identity : Hash256
  poisoned : Bool
  isProtected : Bool
  rollover : Option Rollover

namespace Chain

def stateAt (c : Chain) (sequence : Nat) : JournalState :=
  ⟨sequence, c.last.map Prod.fst, (c.last.map Prod.snd).getD Hash256.zero, c.tip⟩

/-- `last.zip(safety)` without the digest, as `validate_safety` takes it. -/
def guarded (c : Chain) : Option (SigningPosition × SigningSafety) :=
  match c.last, c.safety with
  | some (position, _), some safety => some (position, safety)
  | _, _ => none

def decision (c : Chain) : Option Decision :=
  c.last.map fun (position, message) => ⟨position, message, c.safety⟩

end Chain

section
variable (H : Hasher)

def headerDomain : Bytes := ascii "astrolune.signing.journal.v1"

def headerBody (context : SigningContext) (publicKey : Fixed 32) (isProtected : Bool) : Bytes :=
  ascii "ALSJ" ++ (u32Bytes (if isProtected then 2 else 1) ++
    (u32Bytes context.chainId ++ (context.genesis.1 ++ publicKey.1)))

def headerVersion (context : SigningContext) (publicKey : Fixed 32) (isProtected : Bool) : Bytes :=
  let body := headerBody context publicKey isProtected
  body ++ (domainHash H headerDomain body).1

def Chain.step (c : Chain) (isProtected : Bool) (sequence : Nat) (bytes : Bytes) :
    Except KeystoreError Chain := do
  let entry ← decodeEntry H bytes sequence c.tip isProtected
  failAs .invalidJournal (validateNext entry.position entry.safety c.guarded)
  ensure .invalidJournal (∀ last ∈ c.last, last.1 < entry.position)
  return ⟨entry.checksum, some (entry.position, entry.message), some (c.stateAt (sequence - 1)),
    entry.safety⟩

def replay (isProtected : Bool) : Nat → Nat → Chain → Bytes → Except KeystoreError Chain
  | 0, _, c, _ => .ok c
  | n + 1, sequence, c, rest => do
    ensure .invalidJournal (recordSize isProtected ≤ rest.length)
    let c ← c.step H isProtected sequence (rest.take (recordSize isProtected))
    replay isProtected n (sequence + 1) c (rest.drop (recordSize isProtected))

namespace Journal

def state (j : Journal) : JournalState := j.stateAt j.count

def ofChain (c : Chain) (count : Nat) (identity : Hash256) (isProtected : Bool) : Journal :=
  { c with count, identity, poisoned := false, isProtected, rollover := none }

def checkLength (j : Journal) (content : Bytes) : Except KeystoreError Unit := do
  let expected := if j.rollover.isSome then maxRolloverJournalBytes
    else journalHeaderBytes + j.count * recordSize j.isProtected
  ensure .invalidJournal (content.length = expected)
  match j.rollover with
  | none => pure ()
  | some r =>
    ensure .invalidJournal
      ((content.drop maxProtectedJournalBytes).take Rollover.extensionBytes = r.encode H)

def withRollover (j : Journal) (r : Rollover) : Journal :=
  { j with
    previous := match r.older with
      | some older => some ⟨older.sequence, some older.position, older.message, j.tip⟩
      | none => j.previous
    count := r.latest.sequence
    last := some (r.latest.position, r.latest.message)
    safety := some r.latest.safety
    rollover := some r }

def recoverRollover (j : Journal) (content : Bytes) : Except KeystoreError Journal := do
  let bytes := (content.drop maxProtectedJournalBytes).take Rollover.extensionBytes
  let r ← Rollover.decode H j.tip j.last j.safety bytes
  return j.withRollover r

def recoverIf (j : Journal) (rolled : Bool) (content : Bytes) : Except KeystoreError Journal :=
  if rolled then j.recoverRollover H content else .ok j

def headerMode (bytes : Bytes) : Except KeystoreError Bool :=
  if (bytes.drop 4).take 4 = [1, 0, 0, 0] then .ok false
  else if (bytes.drop 4).take 4 = [2, 0, 0, 0] then .ok true
  else .error .invalidJournal

/-- `Journal::open` up to its final sync, on the bytes the file holds. -/
def openBytes (context : SigningContext) (publicKey : Fixed 32) (content : Bytes) :
    Except KeystoreError Journal := do
  ensure .invalidJournal
    (journalHeaderBytes ≤ content.length ∧ content.length ≤ maxRolloverJournalBytes)
  let bytes := content.take journalHeaderBytes
  let checksum := domainHash H headerDomain (bytes.take 76)
  let isProtected ← headerMode bytes
  ensure .invalidJournal (bytes.take 4 = ascii "ALSJ" ∧ bytes.drop 76 = checksum.1)
  ensure .contextMismatch (bytes = headerVersion H context publicKey isProtected)
  let rolled : Bool := isProtected && content.length == maxRolloverJournalBytes
  let prefixLength := if rolled then maxProtectedJournalBytes else content.length
  ensure .invalidJournal ((prefixLength - journalHeaderBytes) % recordSize isProtected = 0)
  let count := (prefixLength - journalHeaderBytes) / recordSize isProtected
  ensure .invalidJournal (count ≤ maxJournalRecords)
  let chain ← replay H isProtected count 1 ⟨checksum, none, none, none⟩
    (content.drop journalHeaderBytes)
  let journal := ofChain chain count checksum isProtected
  let journal ← journal.recoverIf H rolled content
  journal.checkLength H content
  return journal

end Journal
end
end Astrolune.Keystore
