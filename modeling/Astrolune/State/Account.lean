import Astrolune.Codec.Reads
import Astrolune.State.Tree

namespace Astrolune
open Lib Codec

structure AccountState where
  nonce : UInt64
  balance : UInt64
  deriving DecidableEq

namespace AccountState

def toBytes (a : AccountState) : Bytes := u64Bytes a.nonce ++ u64Bytes a.balance

def read : Decoder AccountState := do
  let nonce ← Decoder.readU64
  let balance ← Decoder.readU64
  return { nonce, balance }

def decode (bytes : Bytes) : Except DecodeError AccountState := Reader.whole read bytes

end AccountState

namespace State

/-- An immutable state as execution sees it: the values at its keys. -/
abbrev View := StateKey → Except StateError (Option Bytes)

def accountKey (address : Address) : StateKey := ascii "astrolune/account/v1/" ++ address.1

def decodeAccount (value : Option Bytes) : Except StateError (Option AccountState) :=
  match value with
  | none => .ok none
  | some bytes => do
    let account ← failAs .corrupt (AccountState.decode bytes)
    return some account

def readAccount (view : View) (address : Address) : Except StateError (Option AccountState) := do
  let value ← view (accountKey address)
  decodeAccount value

namespace StateDiff

def put (d : StateDiff) (key : StateKey) (value : Bytes) : StateDiff :=
  ⟨d.changes ++ [.put key value]⟩

def sortCanonical (d : StateDiff) : StateDiff :=
  ⟨d.changes.insertionSort fun a b => a.key ≤ b.key⟩

def changeBytes : StateChange → Bytes
  | .put key value => 1 :: (encodeBytes key ++ encodeBytes value)
  | .delete key => 2 :: encodeBytes key

def toBytes (d : StateDiff) : Bytes :=
  encodeLength d.changes.length ++ d.changes.flatMap changeBytes

def commitment (H : Hasher) (d : StateDiff) : Hash256 :=
  domainHash H (ascii "astrolune.state.diff.v1") d.toBytes

end StateDiff
end State
end Astrolune
