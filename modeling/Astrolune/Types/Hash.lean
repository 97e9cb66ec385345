import Astrolune.Codec.Decoder

namespace Astrolune
open Lib Codec

abbrev Hash256 := Fixed 32
abbrev ValidatorId := Fixed 32

/-- BLAKE2s-256, which every result takes as a parameter. -/
abbrev Hasher := Bytes → Hash256

instance lawfulBEqHash256 : LawfulBEq Hash256 := inferInstance

def Hash256.zero : Hash256 := ⟨List.replicate 32 0, by simp⟩

def ascii (text : String) : Bytes := text.toList.map fun c => UInt8.ofNat c.toNat

def domainHash (H : Hasher) (domain message : Bytes) : Hash256 :=
  H (ascii "astrolune.v1." ++ leBytes 8 domain.length ++ domain ++ message)

end Astrolune
