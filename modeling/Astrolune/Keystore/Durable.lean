import Astrolune.Lib.Run
import Astrolune.Keystore.Anchor

namespace Astrolune.Keystore
open Lib Codec

/-- The linked primitives: BLAKE2s-256 and Ed25519. -/
structure Crypto where
  blake2s : Bytes → Hash256
  ed25519PublicKey : Fixed 32 → Fixed 32
  ed25519Sign : Fixed 32 → Bytes → Fixed 64

inductive KeyPurpose where
  | consensus
  | network
  | service
  | wallet
  deriving DecidableEq

structure KeyHandle where
  id : String
  purpose : KeyPurpose
  deriving DecidableEq

/-- `Display` of a digest: two lowercase hexadecimal digits a byte. -/
def hexText (bytes : Bytes) : String :=
  String.ofList (bytes.flatMap fun b =>
    [Nat.digitChar (b.toNat / 16), Nat.digitChar (b.toNat % 16)])

structure DurableSigner where
  seed : Fixed 32
  publicKey : Fixed 32
  validator : ValidatorId
  handle : KeyHandle
  context : SigningContext
  journal : Journal
  anchor : Option AnchorStore

structure SignIo where
  reserve : ReserveIo
  witness : WriteOutcome

namespace DurableSigner

def validatorId (s : DurableSigner) (handle : KeyHandle) : Except KeystoreError ValidatorId :=
  if handle.purpose ≠ .consensus then .error .wrongPurpose
  else if handle.id ≠ s.handle.id then .error .unknownKey
  else .ok s.validator

variable (crypto : Crypto)

def ofJournal (context : SigningContext) (seed : Fixed 32) (journal : Journal) : DurableSigner :=
  let publicKey := crypto.ed25519PublicKey seed
  let validator := crypto.blake2s publicKey.1
  ⟨seed, publicKey, validator, ⟨hexText validator.1, .consensus⟩, context, journal, none⟩

def witness (s : DurableSigner) (file : Option File) (io : WriteOutcome) :
    DurableSigner × Option File × Except KeystoreError Unit :=
  match s.anchor, file with
  | none, file => (s, file, .ok ())
  | some store, some file =>
    let (store, file, result) := store.commit crypto.blake2s file io s.journal.state
    ({ s with anchor := some store }, some file, result)
  -- an open anchor keeps its file, so this case is never reached
  | some _, none => (s, none, .error .journalFailure)

/-- `sign_protected` with a safety record, `sign_consensus` without one. -/
def sign (s : DurableSigner) (journalFile : File) (anchorFile : Option File) (io : SignIo)
    (handle : KeyHandle) (position : SigningPosition) (message : Hash256)
    (safety : Option SigningSafety) :
    DurableSigner × File × Option File × Except KeystoreError (Fixed 64) :=
  match s.validatorId handle with
  | .error e => (s, journalFile, anchorFile, .error e)
  | .ok _ =>
    if s.anchor.any AnchorStore.poisoned then
      (s, journalFile, anchorFile, .error .durabilityUnknown)
    else match s.journal.reserveEntry crypto.blake2s journalFile io.reserve position message safety with
      | (journal, journalFile, .error e) => ({ s with journal }, journalFile, anchorFile, .error e)
      | (journal, journalFile, .ok ()) =>
        match witness crypto { s with journal } anchorFile io.witness with
        | (s, anchorFile, .error e) => (s, journalFile, anchorFile, .error e)
        | (s, anchorFile, .ok ()) =>
          (s, journalFile, anchorFile, .ok (crypto.ed25519Sign s.seed message.1))

end DurableSigner

/-- One validator host: its two files, the signer it runs, and the decisions whose signatures
have left it, newest first. -/
structure Host where
  journal : Option File
  anchor : Option File
  live : Option DurableSigner
  released : List Decision

/-- Everything that can happen to a host, with the environment's choices. -/
inductive Event where
  | create (isProtected : Bool) (io : WriteOutcome)
  | openSigner (synced : Bool)
  | createAnchor (synced : Bool) (io : WriteOutcome)
  | openWithAnchor (journalSynced anchorSynced : Bool) (io : WriteOutcome)
  /-- A signing call; `stopped` when the process ends before the signature leaves it. -/
  | sign (handle : KeyHandle) (position : SigningPosition) (message : Hash256)
      (safety : Option SigningSafety) (io : SignIo) (stopped : Bool)
  | stop
  | powerLoss (journalLeft anchorLeft : Bytes)
  /-- Somebody replaces the journal file while no signer runs. -/
  | restore (file : File)

namespace Host
variable (crypto : Crypto) (context : SigningContext) (seed : Fixed 32)

/-- `DurableSigner::initialize` on an existing file, up to and including the final sync. A second
instance is refused by the lock, and a zero genesis before the file is looked at. -/
def openJournal (h : Host) (synced : Bool) : Option (File × Journal) :=
  match h.live, h.journal with
  | none, some file =>
    if context.genesis = Hash256.zero ∨ synced = false then none
    else match Journal.openBytes crypto.blake2s context (crypto.ed25519PublicKey seed)
        file.visible with
      | .ok journal => some (file.sync, journal)
      | .error _ => none
  | _, _ => none

def create (h : Host) (isProtected : Bool) (io : WriteOutcome) : Host :=
  let publicKey := crypto.ed25519PublicKey seed
  if h.journal.isSome ∨ context.genesis = Hash256.zero then h
  else match (File.settled []).write 0
      (headerVersion crypto.blake2s context publicKey isProtected) io with
    | (file, false) => { h with journal := some file }
    | (file, true) =>
      let identity := journalIdentity crypto.blake2s context publicKey isProtected
      let journal := Journal.ofChain ⟨identity, none, none, none⟩ 0 identity isProtected
      { h with
        journal := some file
        live := some (DurableSigner.ofJournal crypto context seed journal) }

def createAnchor (h : Host) (synced : Bool) (io : WriteOutcome) : Host :=
  match h.openJournal crypto context seed synced with
  | none => h
  | some (file, journal) =>
    let publicKey := crypto.ed25519PublicKey seed
    if h.anchor.isSome then { h with journal := some file }
    else match (File.settled []).write 0
        (AnchorStore.image crypto.blake2s context publicKey journal.identity journal.state) io with
      | (anchor, false) => { h with journal := some file, anchor := some anchor }
      | (anchor, true) =>
        let store := AnchorStore.fresh crypto.blake2s context publicKey journal.identity
          journal.state
        let signer := DurableSigner.ofJournal crypto context seed journal
        { h with
          journal := some file
          anchor := some anchor
          live := some { signer with anchor := some store } }

def openAnchor (h : Host) (identity : Hash256) (synced : Bool) : Option (File × AnchorStore) :=
  match h.anchor with
  | none => none
  | some file =>
    if synced = false then none
    else match AnchorStore.openBytes crypto.blake2s context (crypto.ed25519PublicKey seed) identity
        file.visible with
      | .ok store => some (file.sync, store)
      | .error _ => none

def openWithAnchor (h : Host) (journalSynced anchorSynced : Bool) (io : WriteOutcome) : Host :=
  match h.openJournal crypto context seed journalSynced with
  | none => h
  | some (file, journal) =>
    match h.openAnchor crypto context seed journal.identity anchorSynced with
    | none => { h with journal := some file }
    | some (anchor, store) =>
      match store.reconcile crypto.blake2s anchor io journal.state journal.previous with
      | (_, anchor, .error _) => { h with journal := some file, anchor := some anchor }
      | (store, anchor, .ok ()) =>
        let signer := DurableSigner.ofJournal crypto context seed journal
        { h with
          journal := some file
          anchor := some anchor
          live := some { signer with anchor := some store } }

def signEvent (h : Host) (handle : KeyHandle) (position : SigningPosition) (message : Hash256)
    (safety : Option SigningSafety) (io : SignIo) (stopped : Bool) : Host :=
  match h.live, h.journal with
  | some signer, some file =>
    match signer.sign crypto file h.anchor io handle position message safety with
    | (signer, file, anchor, .error _) =>
      { h with journal := some file, anchor, live := some signer }
    | (signer, file, anchor, .ok _) =>
      if stopped then { h with journal := some file, anchor, live := none }
      else
        { h with
          journal := some file, anchor, live := some signer
          released := ⟨position, message, safety⟩ :: h.released }
  | _, _ => h

def step (h : Host) : Event → Host
  | .create isProtected io => h.create crypto context seed isProtected io
  | .openSigner synced =>
    match h.openJournal crypto context seed synced with
    | none => h
    | some (file, journal) =>
      { h with
        journal := some file
        live := some (DurableSigner.ofJournal crypto context seed journal) }
  | .createAnchor synced io => h.createAnchor crypto context seed synced io
  | .openWithAnchor journalSynced anchorSynced io =>
    h.openWithAnchor crypto context seed journalSynced anchorSynced io
  | .sign handle position message safety io stopped =>
    h.signEvent crypto handle position message safety io stopped
  | .stop => { h with live := none }
  | .powerLoss journalLeft anchorLeft =>
    { h with
      journal := h.journal.map (·.lose journalLeft)
      anchor := h.anchor.map (·.lose anchorLeft)
      live := none }
  | .restore file => { h with journal := if h.live.isSome then h.journal else some file }

def start (journal anchor : Option File) : Host := ⟨journal, anchor, none, []⟩

end Host
end Astrolune.Keystore
