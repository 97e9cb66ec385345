import Astrolune.Lib.Bytes
import Astrolune.Lib.Result

namespace Astrolune.Codec
open Lib

inductive DecodeError where
  | truncated
  | lengthOverflow
  | limitExceeded
  | nonCanonical
  | unsupported
  | trailingBytes
  deriving DecidableEq, Repr

abbrev Decoder (α : Type) := StateT Bytes (Except DecodeError) α

namespace Decoder

def remaining : Decoder Nat := fun rest => .ok (rest.length, rest)

def readExact (n : Nat) : Decoder Bytes := fun rest =>
  if n ≤ rest.length then .ok (rest.take n, rest.drop n) else .error .truncated

def readFixed (n : Nat) : Decoder (Fixed n) := fun rest =>
  if h : n ≤ rest.length then
    .ok (⟨rest.take n, by simpa using h⟩, rest.drop n)
  else .error .truncated

def readU8 : Decoder UInt8 := fun rest =>
  match rest with
  | [] => .error .truncated
  | b :: rest => .ok (b, rest)

def readU16 : Decoder UInt16 := do
  return UInt16.ofNat (leNat (← readExact 2))

def readU32 : Decoder UInt32 := do
  return UInt32.ofNat (leNat (← readExact 4))

def readU64 : Decoder UInt64 := do
  return UInt64.ofNat (leNat (← readExact 8))

def finish : Decoder Unit := fun rest =>
  if rest = [] then .ok ((), rest) else .error .trailingBytes

end Decoder

def u16Bytes (x : UInt16) : Bytes := leBytes 2 x.toNat
def u32Bytes (x : UInt32) : Bytes := leBytes 4 x.toNat
def u64Bytes (x : UInt64) : Bytes := leBytes 8 x.toNat

@[simp] lemma u16Bytes_length (x : UInt16) : (u16Bytes x).length = 2 := leBytes_length 2 _
@[simp] lemma u32Bytes_length (x : UInt32) : (u32Bytes x).length = 4 := leBytes_length 4 _
@[simp] lemma u64Bytes_length (x : UInt64) : (u64Bytes x).length = 8 := leBytes_length 8 _

lemma u32Bytes_injective {x y : UInt32} (h : u32Bytes x = u32Bytes y) : x = y :=
  UInt32.toNat_inj.mp (leBytes_injective (by simpa using x.toNat_lt) (by simpa using y.toNat_lt) h)

lemma u64Bytes_injective {x y : UInt64} (h : u64Bytes x = u64Bytes y) : x = y :=
  UInt64.toNat_inj.mp (leBytes_injective (by simpa using x.toNat_lt) (by simpa using y.toNat_lt) h)

namespace Decoder

@[simp] lemma run_remaining (rest : Bytes) : remaining.run rest = .ok (rest.length,rest) := rfl

lemma run_readExact {n : Nat} {fr rest : Bytes} (h : fr.length = n) :
    (readExact n).run (fr ++ rest) = .ok (fr,rest) := by
  subst h
  simp [StateT.run,readExact]

@[simp] lemma run_readFixed {n : Nat} (fr : Fixed n) (rest : Bytes) :
    (readFixed n).run (fr.1 ++ rest) = .ok (fr,rest) := by
  obtain ⟨bs,rfl⟩ := fr
  simp [StateT.run,readFixed]

@[simp] lemma run_readFixed_last {n : Nat} (bs : Fixed n) :
    (readFixed n).run bs.1 = .ok (bs,[]) := by
  simpa using run_readFixed bs []

@[simp] lemma run_readU8 (b : UInt8) (rest : Bytes) : readU8.run (b :: rest) = .ok (b,rest) := rfl

lemma run_readU64_digits (n : Nat) (rest : Bytes) :
    readU64.run (leBytes 8 n ++ rest) = .ok (UInt64.ofNat n,rest) := by
  have hw : UInt64.ofNat (n % 256 ^ 8) = UInt64.ofNat n := by
    apply UInt64.toNat_inj.mp
    simp
  simp only [readU64,StateT.run_bind,run_readExact (leBytes_length 8 n),ok_bind,
    StateT.run_pure,pure_eq_ok,leNat_leBytes,hw]

@[simp] lemma run_readU64 (x : UInt64) (rest : Bytes) :
    readU64.run (u64Bytes x ++ rest) = .ok (x,rest) := by
  rw [u64Bytes,run_readU64_digits,UInt64.ofNat_toNat]

@[simp] lemma run_readU32 (x : UInt32) (rest : Bytes) :
    readU32.run (u32Bytes x ++ rest) = .ok (x,rest) := by
  have hx : x.toNat < 256 ^ 4 := x.toNat_lt
  simp only [readU32,u32Bytes,StateT.run_bind,run_readExact (leBytes_length 4 _),ok_bind,
    StateT.run_pure,pure_eq_ok,leNat_leBytes_of_lt hx,UInt32.ofNat_toNat]

@[simp] lemma run_readU16 (x : UInt16) (rest : Bytes) :
    readU16.run (u16Bytes x ++ rest) = .ok (x,rest) := by
  have hx : x.toNat < 256 ^ 2 := x.toNat_lt
  simp only [readU16,u16Bytes,StateT.run_bind,run_readExact (leBytes_length 2 _),ok_bind,
    StateT.run_pure,pure_eq_ok,leNat_leBytes_of_lt hx,UInt16.ofNat_toNat]

@[simp] lemma run_finish : finish.run [] = .ok ((),[]) := rfl

end Decoder
end Astrolune.Codec
