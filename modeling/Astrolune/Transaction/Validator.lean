import Astrolune.Crypto.Vrf
import Astrolune.State.Account
import Astrolune.Transaction.Payload
import Astrolune.Types.Block

namespace Astrolune
open Lib Codec Crypto

structure ValidationContext where
  chainId : UInt32
  nextHeight : UInt64
  maxTransactionBytes : Nat

structure ValidatedTransaction where
  id : Hash256
  lane : TransactionLane
  transaction : Transaction

def validateShape (tx : Transaction) (maxBytes : Nat) : Except TransactionError Unit :=
  ensure .invalidEnvelope (tx.version = transactionVersion ∧ tx.accessList.length ≤ maxListLen ∧
    (∀ key ∈ tx.accessList, key.length ≤ maxStateKeyLen) ∧ tx.payload.length ≤ maxPayload ∧
    tx.encodedLen.any (· ≤ maxBytes) = true)

def Transaction.payloadKey (tx : Transaction) : Except TransactionError (Fixed 32) :=
  match tx.lane with
  | .payments => do
    let payment ← Payment.decode tx.payload
    return payment.publicKey
  | .contracts => do
    let payload ← ContractPayload.decode tx.payload
    return payload.publicKey
  | .system => .error .unsupportedPayload

structure RegisteredAccount where
  state : AccountState
  publicKey : Fixed 32

structure SignedValidator where
  accounts : OrderedMap Address RegisteredAccount
  resourceLimits : Resources
  resourcePrices : Resources

namespace SignedValidator

variable (c : Suite)

def addressFromPublicKey (publicKey : Fixed 32) : Address :=
  domainHash c.blake2s (ascii "astrolune.account.ed25519.v1") publicKey.1

def validate (v : SignedValidator) (tx : Transaction) (context : ValidationContext) :
    Except TransactionError ValidatedTransaction := do
  validateShape tx context.maxTransactionBytes
  ensure .wrongChain (tx.chainId = context.chainId)
  ensure .expired (¬tx.expiresAt < context.nextHeight)
  let account ← okOr .unknownSender (v.accounts.get tx.sender)
  ensure .unknownSender (addressFromPublicKey c account.publicKey = tx.sender)
  ensure .invalidNonce (tx.nonce = account.state.nonce ∧ tx.nonce.toNat ≠ 2 ^ 64 - 1)
  ensure .insufficientResources (tx.resourcePrices = v.resourcePrices)
  let cost ← okOr .insufficientResources (tx.resourceLimit.checkedCost v.resourcePrices)
  ensure .insufficientResources
    (tx.resourceLimit.fitsIn v.resourceLimits ∧ cost ≤ account.state.balance)
  ensure .invalidSignature
    (c.ed25519Verify account.publicKey (tx.signingHash c.blake2s).1 tx.signature = true)
  let publicKey ← tx.payloadKey
  ensure .unsupportedPayload (publicKey = account.publicKey)
  return ⟨tx.computeTxId c.blake2s, tx.lane, tx⟩

def forSender (sender : Address) (state : AccountState) (publicKey : Fixed 32)
    (limits prices : Resources) : SignedValidator :=
  ⟨OrderedMap.empty.insert sender ⟨state, publicKey⟩, limits, prices⟩

variable {c} {state : AccountState} {publicKey : Fixed 32}
  {limits prices : Resources} {tx : Transaction} {ctx : ValidationContext}
  {validated : ValidatedTransaction}

/-- What a sender's own validator has checked. -/
structure Accepts (c : Suite) (state : AccountState) (publicKey : Fixed 32)
    (limits prices : Resources) (tx : Transaction) (context : ValidationContext) : Prop where
  shape : validateShape tx context.maxTransactionBytes = .ok ()
  chain : tx.chainId = context.chainId
  alive : ¬tx.expiresAt < context.nextHeight
  address : addressFromPublicKey c publicKey = tx.sender
  nonce : tx.nonce = state.nonce ∧ tx.nonce.toNat ≠ 2 ^ 64 - 1
  priced : tx.resourcePrices = prices
  limited : tx.resourceLimit.fitsIn limits
  cost : ∃ cost, tx.resourceLimit.checkedCost prices = some cost ∧ cost ≤ state.balance
  signature : c.ed25519Verify publicKey (tx.signingHash c.blake2s).1 tx.signature = true
  payload : tx.payloadKey = .ok publicKey

lemma validate_forSender :
    (forSender tx.sender state publicKey limits prices).validate c tx ctx = .ok validated ↔
      Accepts c state publicKey limits prices tx ctx ∧
        validated = ⟨tx.computeTxId c.blake2s,tx.lane,tx⟩ := by
  have hg : (forSender tx.sender state publicKey limits prices).accounts.get tx.sender =
      some ⟨state,publicKey⟩ := by
    rw [forSender,OrderedMap.get_insert,if_pos rfl]
  unfold validate
  simp only [hg,bind_eq_ok,ensure_eq_ok,pure_eq_ok,okOr_eq_ok,Except.ok.injEq, Option.some.injEq]
  constructor
  · rintro ⟨_,hs,_,hc,_,hal,_,rfl,_,ha,_,hn,_,hp,cost,hco, _,⟨hl,hb⟩,_,hsi,_,hk,_,rfl,rfl⟩
    exact ⟨⟨hs,hc,hal,ha,hn,hp,hl,⟨cost,hco,hb⟩,hsi,hk⟩,rfl⟩
  · rintro ⟨h,rfl⟩
    obtain ⟨cost,hco,hb⟩ := h.cost
    exact ⟨(),h.shape,(),h.chain,(),h.alive,_,rfl,(),h.address,(),h.nonce,(),h.priced,
      cost,hco,(),⟨h.limited,hb⟩,(),h.signature,publicKey,h.payload,(),rfl,rfl⟩

end SignedValidator
end Astrolune
