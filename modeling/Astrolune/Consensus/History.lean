import Astrolune.Codec.Reads
import Astrolune.Consensus.Committee
import Astrolune.Lib.Frontier
import Astrolune.Types.Digest

namespace Astrolune.Consensus
open Lib Codec Decoder Reader

structure CommitteeHistory where
  chainId : UInt32
  genesis : Hash256
  entries : Nat
  frontier : List (Option Hash256)
  deriving DecidableEq

structure CommitteeHistoryProof where
  entries : Nat
  height : Nat
  committeeRoot : Hash256
  siblings : List Hash256
  deriving DecidableEq

namespace CommitteeHistory

def new (chainId : UInt32) (genesis : Hash256) : Except ConsensusError CommitteeHistory := do
  ensure .invalidTransition (chainId ≠ 0 ∧ genesis ≠ Hash256.zero)
  return { chainId, genesis, entries := 0, frontier := List.replicate 64 none }

def namespaceBytes (h : CommitteeHistory) : Bytes := u32Bytes h.chainId ++ h.genesis.1

section Hashes

variable (H : Hasher)

def node (left right : Hash256) : Hash256 :=
  domainHash H (ascii "astrolune.committee.history.node.v1") (left.1 ++ right.1)

def leaf (h : CommitteeHistory) (height : Nat) (committee : Hash256) : Hash256 :=
  domainHash H (ascii "astrolune.committee.history.leaf.v1")
    (h.namespaceBytes ++ (leBytes 8 height ++ committee.1))

def treeRoot (h : CommitteeHistory) : Hash256 :=
  (joinPeaks (node H) h.frontier).getD
    (domainHash H (ascii "astrolune.committee.history.empty.v1") [])

/-- The frontier after the next committee, or `none` where the source would panic. -/
def append (h : CommitteeHistory) (context : AuthenticatedCommittee) :
    Option (Except ConsensusError CommitteeHistory) :=
  match checkedAdd64 h.entries 1 with
  | none => some (.error .invalidTransition)
  | some next =>
    if context.chainId = h.chainId ∧ context.height.toNat = next then
      (carryIn (node H) h.frontier h.entries (h.leaf H next context.root)).map
        fun frontier => .ok { h with frontier, entries := next }
    else some (.error .invalidTransition)

/-- `append` as a fallible step. A frontier that the source would panic on is refused here; see
`Records.append` for why no history built by `append` has one. -/
def tryAppend (h : CommitteeHistory) (context : AuthenticatedCommittee) :
    Except ConsensusError CommitteeHistory :=
  (h.append H context).getD (.error .invalidTransition)

/-- The root over `count` committees after `start`, in height order. The proof collects the root at
its own height and the siblings on the way up from it. -/
def subtree (h : CommitteeHistory) (lookup : Nat → Except ConsensusError Hash256) :
    Nat → Nat → Nat → CommitteeHistoryProof → Except ConsensusError (Hash256 × CommitteeHistoryProof)
  | fuel, start, count, proof =>
    if count = 1 then do
      let root ← lookup (start + 1)
      return (h.leaf H (start + 1) root,
        if start + 1 = proof.height then { proof with committeeRoot := root } else proof)
    else
      match fuel with
      | 0 => .error .invalidTransition
      | fuel+1 => do
        let (left, proof) ← subtree h lookup fuel start (split count) proof
        let (right, proof) ←
          subtree h lookup fuel (start + split count) (count - split count) proof
        return (node H left right,
          if start < proof.height ∧ proof.height ≤ start + count then
            { proof with siblings := proof.siblings ++
                [if proof.height ≤ start + split count then right else left] }
          else proof)

def prove (h : CommitteeHistory) (height maximumEntries : Nat)
    (lookup : Nat → Except ConsensusError Hash256) :
    Except ConsensusError CommitteeHistoryProof := do
  ensure .invalidTransition (height ≠ 0 ∧ height ≤ h.entries ∧ h.entries ≤ maximumEntries)
  let (root, proof) ← h.subtree H lookup h.entries 0 h.entries
    { entries := h.entries, height, committeeRoot := Hash256.zero, siblings := [] }
  ensure .invalidProof (root = h.treeRoot H)
  return proof

end Hashes

def toBytes (h : CommitteeHistory) : Bytes :=
  ascii "ALCHST01" ++ (h.namespaceBytes ++ (leBytes 8 h.entries ++
    (h.frontier.filterMap id).flatMap Subtype.val))

end CommitteeHistory

namespace CommitteeHistoryProof

def validateShape (p : CommitteeHistoryProof) : Except DecodeError Unit := do
  ensure .nonCanonical (p.height ≠ 0 ∧ p.height ≤ p.entries ∧ p.siblings.length ≤ 64)
  ensure .nonCanonical (p.siblings.length = splitDepth p.entries (p.height - 1) p.entries)

def skip : Nat → Nat → Nat → Nat × Nat
  | 0, index, last => (index, last)
  | fuel+1, index, last =>
    if index ≠ 0 ∧ index % 2 = 0 then skip fuel (index / 2) (last / 2) else (index, last)

/-- The loop of `verify` over the siblings, with the check of `last` behind it. -/
def recompute (join : Hash256 → Hash256 → Hash256) :
    List Hash256 → Nat → Nat → Hash256 → Option Hash256
  | [], _, last, root => if last = 0 then some root else none
  | sibling :: rest, index, last, root =>
    if last = 0 then none
    else if index % 2 = 1 ∨ index = last then
      recompute join rest ((skip index index last).1 / 2) ((skip index index last).2 / 2)
        (join sibling root)
    else recompute join rest (index / 2) (last / 2) (join root sibling)

def verify (H : Hasher) (p : CommitteeHistoryProof) (trusted : CommitteeHistory)
    (context : AuthenticatedCommittee) : Except ConsensusError Unit := do
  failAs .invalidProof p.validateShape
  ensure .invalidProof (p.entries = trusted.entries ∧ context.chainId = trusted.chainId ∧
    context.height.toNat = p.height ∧ context.root = p.committeeRoot)
  let root ← okOr .invalidProof (recompute (CommitteeHistory.node H) p.siblings (p.height - 1)
    (p.entries - 1) (trusted.leaf H p.height p.committeeRoot))
  ensure .invalidProof (root = trusted.treeRoot H)

def maxBytes : Nat := 57 + 64 * 32

def toBytes (p : CommitteeHistoryProof) : Except DecodeError Bytes := do
  p.validateShape
  return ascii "ALCHPF01" ++ (leBytes 8 p.entries ++ (leBytes 8 p.height ++ (p.committeeRoot.1 ++
    ([UInt8.ofNat p.siblings.length] ++ p.siblings.flatMap Subtype.val))))

def read : Decoder CommitteeHistoryProof := do
  let magic ← readExact 8
  check .unsupported (magic = ascii "ALCHPF01")
  let entries ← readU64
  let height ← readU64
  let committeeRoot ← readFixed 32
  let count ← readU8
  let remaining ← remaining
  check .nonCanonical (count.toNat ≤ 64 ∧ remaining = count.toNat * 32)
  let siblings ← many (readFixed 32) count.toNat
  return { entries := entries.toNat, height := height.toNat, committeeRoot, siblings }

def fromBytes (bytes : Bytes) : Except DecodeError CommitteeHistoryProof := do
  ensure .limitExceeded (bytes.length ≤ maxBytes)
  let p ← whole read bytes
  p.validateShape
  return p

end CommitteeHistoryProof

end Astrolune.Consensus
