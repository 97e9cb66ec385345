import Astrolune.Crypto.Batch

namespace Astrolune.Crypto
open Lib Codec

/-- The linked primitives: BLAKE2s-256, Ed25519 and the ECVRF suite. `verifyEcvrf` gives the output
of a canonical proof that verifies, and `canonicalProof` says which 80 bytes are a proof. -/
structure Suite extends Verifier where
  blake2s : Bytes → Hash256
  verifyEcvrf : Fixed 32 → Bytes → Bytes → Option (Fixed 64)
  canonicalProof : Bytes → Bool

def Suite.identity (c : Suite) (publicKey : Fixed 32) : ValidatorId := c.blake2s publicKey.1

structure VrfOutput where
  randomness : Hash256
  proof : Bytes
  deriving DecidableEq

inductive VrfRole where
  | committee
  | producer
  deriving DecidableEq

structure VrfInput where
  chainId : UInt32
  genesis : Hash256
  epoch : UInt64
  height : UInt64
  parentRandomness : Hash256
  round : UInt32
  role : VrfRole
  deriving DecidableEq

def VrfRole.domain : VrfRole → Bytes
  | .committee => ascii "astrolune.vrf.committee.v1"
  | .producer => ascii "astrolune.vrf.producer.v1"

def VrfInput.seed (H : Hasher) (i : VrfInput) : Hash256 :=
  domainHash H i.role.domain (u32Bytes i.chainId ++ (i.genesis.1 ++ (u64Bytes i.epoch ++
    (u64Bytes i.height ++ (i.parentRandomness.1 ++ u32Bytes i.round)))))

def vrfProofBytes : Nat := 80

def decodeProof (c : Suite) (bytes : Bytes) : Bool :=
  bytes.length = vrfProofBytes && c.canonicalProof bytes

def verifyVrf (c : Suite) (publicKey : Fixed 32) (seed : Hash256) (output : VrfOutput) : Bool :=
  c.strongKey publicKey && decodeProof c output.proof &&
    (c.verifyEcvrf publicKey seed.1 output.proof).any fun beta =>
      domainHash c.blake2s (ascii "astrolune.vrf.output.v1") beta.1 = output.randomness

namespace VrfOutput

def encode (c : Suite) (o : VrfOutput) : Option Bytes :=
  if decodeProof c o.proof then some (ascii "ALVR" ++ (u32Bytes 1 ++ (o.randomness.1 ++ o.proof)))
  else none

end VrfOutput

end Astrolune.Crypto
