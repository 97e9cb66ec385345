import Astrolune.Types.Hash

namespace Astrolune
open Lib Codec

structure Resources where
  compute : UInt64
  memory : UInt64
  io : UInt64
  bandwidth : UInt64
  deriving DecidableEq

structure BlockHeader where
  height : UInt64
  parent : Hash256
  transactionsRoot : Hash256
  stateRoot : Hash256
  receiptsRoot : Hash256
  committeeRoot : Hash256
  capacity : Resources
  deriving DecidableEq

def Resources.bytes (r : Resources) : Bytes :=
  u64Bytes r.compute ++ (u64Bytes r.memory ++ (u64Bytes r.io ++ u64Bytes r.bandwidth))

def BlockHeader.canonicalBytes (h : BlockHeader) : Bytes :=
  u64Bytes h.height ++ (h.parent.1 ++ (h.transactionsRoot.1 ++ (h.stateRoot.1 ++
    (h.receiptsRoot.1 ++ (h.committeeRoot.1 ++ h.capacity.bytes)))))

def BlockHeader.computeHash (H : Hasher) (h : BlockHeader) : Hash256 :=
  domainHash H (ascii "astrolune.block.v1") h.canonicalBytes

end Astrolune
