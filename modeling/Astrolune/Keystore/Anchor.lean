import Astrolune.Keystore.Reserve

namespace Astrolune.Keystore
open Lib Codec

structure AnchorStore where
  identity : Hash256
  checksum : Hash256
  slots : Fin 2 → JournalState
  poisoned : Bool

/-- `Option<SigningPosition>` in its derived order, `None` first. -/
def positionBefore : Option SigningPosition → Option SigningPosition → Bool
  | _, none => false
  | none, some _ => true
  | some a, some b => decide (a < b)

namespace AnchorStore

def magic : Bytes := ascii "ALSANCH1"
def headerBytes : Nat := 140
def slotBytes : Nat := 118
def anchorBytes : Nat := headerBytes + 2 * slotBytes

def slotOffset (slot : Fin 2) : Nat := headerBytes + slot.val * slotBytes

def destination (sequence : Nat) : Fin 2 := if sequence % 2 = 0 then 0 else 1

def latest (a : AnchorStore) : JournalState :=
  if (a.slots 1).sequence < (a.slots 0).sequence then a.slots 0 else a.slots 1

def headerBody (context : SigningContext) (publicKey : Fixed 32) (identity : Hash256) : Bytes :=
  magic ++ (u32Bytes context.chainId ++ (context.genesis.1 ++ (publicKey.1 ++ identity.1)))

def slotBody (state : JournalState) : Bytes :=
  leBytes 8 state.sequence ++ ([if state.position.isSome then 1 else 0] ++
    ((state.position.getD ⟨0, 0, 0⟩).bytes ++ (state.message.1 ++ state.tip.1)))

structure ParsedSlot where
  sequence : Nat
  present : UInt8
  position : SigningPosition
  message : Hash256
  tip : Hash256
  stored : Hash256

def readSlot : Decoder ParsedSlot := do
  let sequence ← Decoder.readU64
  let present ← Decoder.readU8
  let position ← readPosition
  let message ← Decoder.readFixed 32
  let tip ← Decoder.readFixed 32
  let stored ← Decoder.readFixed 32
  Decoder.finish
  return ⟨sequence.toNat, present, position, message, tip, stored⟩

def canonicalPosition (p : ParsedSlot) : Except KeystoreError (Option SigningPosition) :=
  if p.present = 0 ∧ p.sequence = 0 ∧ p.position = ⟨0, 0, 0⟩ ∧ p.message = Hash256.zero then
    .ok none
  else if p.present = 1 ∧ 0 < p.sequence ∧ p.position.phase ≤ precommitPhase then
    .ok (some p.position)
  else .error .invalidJournal

section
variable (H : Hasher)

def header (context : SigningContext) (publicKey : Fixed 32) (identity : Hash256) : Bytes :=
  let body := headerBody context publicKey identity
  body ++ (domainHash H (ascii "astrolune.signing.anchor.v1") body).1

def binding (checksum : Hash256) (slot : Fin 2) : Hash256 :=
  domainHash H (ascii "astrolune.signing.anchor.binding.v1")
    (checksum.1 ++ [UInt8.ofNat slot.val])

def slotHash (checksum : Hash256) (slot : Fin 2) (body : Bytes) : Hash256 :=
  domainHash H (ascii "astrolune.signing.anchor.slot.v1")
    ((binding H checksum slot).1 ++ body)

def slotRecord (checksum : Hash256) (slot : Fin 2) (state : JournalState) : Bytes :=
  slotBody state ++ (slotHash H checksum slot (slotBody state)).1

def decodeSlot (checksum : Hash256) (slot : Fin 2) (bytes : Bytes) :
    Except KeystoreError JournalState := do
  let (parsed, _) ← failAs .invalidJournal (readSlot.run bytes)
  ensure .invalidJournal (parsed.stored = slotHash H checksum slot (bytes.take 86))
  let position ← canonicalPosition parsed
  return ⟨parsed.sequence, position, parsed.message, parsed.tip⟩

def image (context : SigningContext) (publicKey : Fixed 32) (identity : Hash256)
    (state : JournalState) : Bytes :=
  let checksum := domainHash H (ascii "astrolune.signing.anchor.v1")
    (headerBody context publicKey identity)
  header H context publicKey identity ++
    (slotRecord H checksum 0 state ++ slotRecord H checksum 1 state)

/-- The anchor `create` returns once its image is durable. -/
def fresh (context : SigningContext) (publicKey : Fixed 32) (identity : Hash256)
    (state : JournalState) : AnchorStore :=
  ⟨identity, domainHash H (ascii "astrolune.signing.anchor.v1")
    (headerBody context publicKey identity), fun _ => state, false⟩

/-- `newer` sits in its own slot, one decision after `older`. -/
def checkStep (older newer : JournalState) (physical : Fin 2) : Except KeystoreError Unit :=
  ensure .invalidJournal (checkedAdd64 older.sequence 1 = some newer.sequence ∧
    destination newer.sequence = physical ∧ positionBefore older.position newer.position)

def checkSlots (a b : JournalState) : Except KeystoreError Unit :=
  if a = b then .ok ()
  else if a.sequence < b.sequence then checkStep a b 1
  else checkStep b a 0

/-- `AnchorStore::open` up to its final sync, on the bytes the file holds. -/
def openBytes (context : SigningContext) (publicKey : Fixed 32) (identity : Hash256)
    (content : Bytes) : Except KeystoreError AnchorStore := do
  ensure .invalidJournal (content.length = anchorBytes)
  let checksum := domainHash H (ascii "astrolune.signing.anchor.v1") (content.take 108)
  ensure .invalidJournal (content.take 8 = magic ∧
    (content.take headerBytes).drop 108 = checksum.1)
  ensure .contextMismatch
    (content.take headerBytes = header H context publicKey identity)
  let a ← decodeSlot H checksum 0 ((content.drop (slotOffset 0)).take slotBytes)
  let b ← decodeSlot H checksum 1 ((content.drop (slotOffset 1)).take slotBytes)
  checkSlots a b
  return ⟨identity, checksum, ![a, b], false⟩

def commit (a : AnchorStore) (file : File) (io : WriteOutcome) (state : JournalState) :
    AnchorStore × File × Except KeystoreError Unit :=
  if a.poisoned then (a, file, .error .durabilityUnknown)
  else if a.latest = state then (a, file, .ok ())
  else if ¬(checkedAdd64 a.latest.sequence 1 = some state.sequence ∧
      positionBefore a.latest.position state.position) then (a, file, .error .invalidJournal)
  else
    let slot := destination state.sequence
    match file.write (slotOffset slot) (slotRecord H a.checksum slot state) io with
    | (file, false) => ({ a with poisoned := true }, file, .error .durabilityUnknown)
    | (file, true) => ({ a with slots := Function.update a.slots slot state }, file, .ok ())

def reconcile (a : AnchorStore) (file : File) (io : WriteOutcome) (current : JournalState)
    (previous : Option JournalState) : AnchorStore × File × Except KeystoreError Unit :=
  if current.sequence < a.latest.sequence then (a, file, .error .stalePosition)
  else if a.latest.sequence = current.sequence then
    if a.latest = current then (a, file, .ok ()) else (a, file, .error .conflictingSign)
  else if checkedAdd64 a.latest.sequence 1 ≠ some current.sequence then
    (a, file, .error .stalePosition)
  else if previous = some a.latest then a.commit H file io current
  else (a, file, .error .conflictingSign)

end
end AnchorStore
end Astrolune.Keystore
