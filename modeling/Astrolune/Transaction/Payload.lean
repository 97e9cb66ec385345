import Astrolune.Lib.OrderedMap
import Astrolune.Types.Digest
import Astrolune.Types.Transaction

namespace Astrolune
open Lib Codec Decoder Reader

inductive TransactionError where
  | invalidEnvelope
  | wrongChain
  | expired
  | unknownSender
  | invalidNonce
  | insufficientResources
  | invalidSignature
  | unsupportedPayload
  deriving DecidableEq

structure Payment where
  publicKey : Fixed 32
  recipient : Address
  amount : UInt64
  deriving DecidableEq

namespace Payment

def encodedLen : Nat := 80

def toBytes (p : Payment) : Bytes :=
  ascii "ALPAY001" ++ (p.publicKey.1 ++ (p.recipient.1 ++ u64Bytes p.amount))

def readFields : Decoder Payment := do
  let _ ← readExact 8
  return { publicKey := ← readFixed 32, recipient := ← readFixed 32,
           amount := ← readU64 }

def decode (bytes : Bytes) : Except TransactionError Payment := do
  ensure .unsupportedPayload (bytes.length = encodedLen ∧ bytes.take 8 = ascii "ALPAY001")
  let payment ← failAs .unsupportedPayload (whole readFields bytes)
  ensure .unsupportedPayload (payment.recipient ≠ Hash256.zero ∧ payment.amount ≠ 0)
  return payment

end Payment

def maxContractCode : Nat := 1000000
def maxContractKeys : Nat := 1024
def maxTroctoSource : Nat := 65536

inductive ContractAction where
  | deploy (code : Bytes)
  | call (address : Address) (input : Bytes) (keys : List Bytes)
  | deployTrocto (source : Bytes)
  | callTrocto (address : Address) (input : Bytes) (keys : List Bytes)
  deriving DecidableEq

structure ContractPayload where
  publicKey : Fixed 32
  action : ContractAction
  deriving DecidableEq

namespace ContractPayload

def fieldBytes (bytes : Bytes) : Bytes := leBytes 4 bytes.length ++ bytes

def actionBytes : ContractAction → Bytes
  | .deploy code | .deployTrocto code => 0 :: fieldBytes code
  | .call address input keys | .callTrocto address input keys =>
    1 :: (address.1 ++ (fieldBytes input ++ (leBytes 4 keys.length ++ keys.flatMap fieldBytes)))

def native : ContractAction → Bool
  | .deploy _ | .call .. => false
  | .deployTrocto _ | .callTrocto .. => true

def toBytes (p : ContractPayload) : Bytes :=
  (if native p.action then ascii "ALCON003" else ascii "ALCON002") ++
    (p.publicKey.1 ++ actionBytes p.action)

/-- `decode_bytes`. -/
def readField (max : Nat) : Decoder Bytes := do
  let length ← readU32
  check .limitExceeded (length.toNat ≤ max)
  readExact length.toNat

def readNative : Decoder Bool := do
  let tag ← readExact 8
  if tag = ascii "ALCON002" then return false
  else do
    check .nonCanonical (tag = ascii "ALCON003")
    return true

def readDeploy (native : Bool) : Decoder ContractAction := do
  let code ← readField (if native then maxTroctoSource else maxContractCode)
  check .nonCanonical (code ≠ [])
  if native then do
    check .nonCanonical (ByteArray.validateUTF8 ⟨code.toArray⟩ = true)
    return .deployTrocto code
  else return .deploy code

def readKeys : Nat → Option Bytes → Decoder (List Bytes)
  | 0, _ => pure []
  | left+1, previous => do
    let key ← readField 256
    check .nonCanonical (key ≠ [] ∧ ∀ before ∈ previous, before < key)
    let rest ← readKeys left (some key)
    return key :: rest

def readCall (native : Bool) : Decoder ContractAction := do
  let address ← readFixed 32
  check .nonCanonical (address ≠ Hash256.zero)
  let input ← readField 65536
  check .nonCanonical (native = true → input.length = 8)
  let count ← readU32
  let remaining ← remaining
  check .limitExceeded (count.toNat ≤ maxContractKeys ∧ count.toNat ≤ remaining / 5)
  let keys ← readKeys count.toNat none
  return if native then .callTrocto address input keys else .call address input keys

def readPayload : Decoder ContractPayload := do
  let native ← readNative
  let publicKey ← readFixed 32
  let kind ← readU8
  let action ←
    if kind = 0 then readDeploy native
    else do
      check .nonCanonical (kind = 1)
      readCall native
  return { publicKey, action }

def decodeInner (bytes : Bytes) : Except DecodeError ContractPayload := do
  ensure .limitExceeded (bytes.length ≤ maxContractCode + 45)
  whole readPayload bytes

def decode (bytes : Bytes) : Except TransactionError ContractPayload :=
  failAs .unsupportedPayload (decodeInner bytes)

end ContractPayload

def contractCodeKey (address : Address) : StateKey :=
  ascii "astrolune/contract/code/v2/" ++ address.1

def troctoContractCodeKey (address : Address) : StateKey :=
  ascii "astrolune/contract/code/v3/" ++ address.1

section Scoped

variable (H : Hasher)

def deploymentBytes (chainId : UInt32) (sender : Address) (nonce : UInt64) : Bytes :=
  u32Bytes chainId ++ (sender.1 ++ u64Bytes nonce)

def contractAddress (chainId : UInt32) (sender : Address) (nonce : UInt64) : Address :=
  domainHash H (ascii "astrolune.contract.address.v2") (deploymentBytes chainId sender nonce)

def troctoContractAddress (chainId : UInt32) (sender : Address) (nonce : UInt64) : Address :=
  domainHash H (ascii "astrolune.contract.address.v3") (deploymentBytes chainId sender nonce)

def contractStateKey (address : Address) (localKey : Bytes) : StateKey :=
  ascii "astrolune/contract/state/v2/" ++ (address.1 ++
    (domainHash H (ascii "astrolune.contract.key.v2") localKey).1)

def troctoContractStateKey (address : Address) (localKey : Bytes) : StateKey :=
  ascii "astrolune/contract/state/v3/" ++ (address.1 ++
    (domainHash H (ascii "astrolune.contract.key.v3") localKey).1)

end Scoped

end Astrolune
