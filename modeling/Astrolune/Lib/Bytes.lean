import Mathlib.Data.List.Basic
import Mathlib.Tactic.Ring

namespace Astrolune.Lib
open List

abbrev Bytes := List UInt8

abbrev Fixed (n : Nat) := { bytes : Bytes // bytes.length = n }

def Fixed.fill (n : Nat) (b : UInt8) : Fixed n := ⟨replicate n b, length_replicate⟩

instance lawfulBEqBytes : LawfulBEq (List UInt8) := inferInstance

/-- The first `n` little-endian digits of a number; higher digits are lost. -/
def leBytes : Nat → Nat → Bytes
  | 0, _ => []
  | n+1, x => UInt8.ofNat x :: leBytes n (x / 256)

def leNat : Bytes → Nat
  | [] => 0
  | b :: bs => b.toNat + 256 * leNat bs

@[simp] lemma leBytes_length (n x : Nat) : (leBytes n x).length = n := by
  induction n generalizing x with
  | zero => rfl
  | succ n ih => simp [leBytes,ih]

lemma leNat_leBytes (n x : Nat) : leNat (leBytes n x) = x % 256 ^ n := by
  induction n generalizing x with
  | zero => simp [leBytes,leNat,Nat.mod_one]
  | succ n ih =>
    have hb : (UInt8.ofNat x).toNat = x % 256 := by simp
    rw [leBytes,leNat,ih,hb,Nat.pow_succ,Nat.mul_comm (256 ^ n) 256,Nat.mod_mul]

lemma leNat_lt (bs : Bytes) : leNat bs < 256 ^ bs.length := by
  induction bs with
  | nil => simp [leNat]
  | cons b bs ih =>
    have hb : b.toNat < 256 := b.toNat_lt
    simp only [leNat,length_cons,Nat.pow_succ]
    omega

variable {n off : Nat} {ct bytes : Bytes}

lemma leNat_leBytes_of_lt {x : Nat} (h : x < 256 ^ n) : leNat (leBytes n x) = x := by
  rw [leNat_leBytes,Nat.mod_eq_of_lt h]

lemma leBytes_leNat (bs : Bytes) : leBytes bs.length (leNat bs) = bs := by
  induction bs with
  | nil => rfl
  | cons b bs ih =>
    have hb : b.toNat < 256 := b.toNat_lt
    have hd : (b.toNat + 256 * leNat bs) / 256 = leNat bs := by omega
    have hm : UInt8.ofNat (b.toNat + 256 * leNat bs) = b := by
      apply UInt8.toNat_inj.mp
      simp only [UInt8.toNat_ofNat']
      omega
    simp only [length_cons,leNat,leBytes,hd,hm,ih]

lemma leBytes_injective {x y : Nat} (hx : x < 256 ^ n) (hy : y < 256 ^ n)
    (h : leBytes n x = leBytes n y) : x = y := by
  rw [← leNat_leBytes_of_lt hx,h,leNat_leBytes_of_lt hy]

lemma length_flatMap_of {α : Type} {encode : α → Bytes} {width : Nat} {l : List α}
    (h : ∀ a ∈ l, (encode a).length = width) : (l.flatMap encode).length = l.length * width := by
  induction l with
  | nil => simp
  | cons a l ih =>
    rw [flatMap_cons,length_append,h a mem_cons_self,
      ih fun b hb => h b (mem_cons_of_mem a hb),length_cons,Nat.succ_mul,Nat.add_comm]

/-- Replacing a byte range in place; bytes past the old end are appended. -/
def overwrite (content : Bytes) (offset : Nat) (bytes : Bytes) : Bytes :=
  content.take offset ++ bytes ++ content.drop (offset + bytes.length)

lemma overwrite_end (ct bytes : Bytes) : overwrite ct ct.length bytes = ct ++ bytes := by
  simp [overwrite]

lemma overwrite_length (h : off + bytes.length ≤ ct.length) :
    (overwrite ct off bytes).length = ct.length := by
  simp only [overwrite,length_append,length_take,length_drop]
  omega

lemma overwrite_take (hn : n ≤ off) (ho : off ≤ ct.length) :
    (overwrite ct off bytes).take n = ct.take n := by
  have hl : n ≤ (ct.take off).length := by simp; omega
  rw [overwrite,append_assoc,take_append_of_le_length hl,take_take, Nat.min_eq_left hn]

lemma overwrite_drop (hn : off + bytes.length ≤ n) (ho : off ≤ ct.length) :
    (overwrite ct off bytes).drop n = ct.drop n := by
  have hl : (ct.take off ++ bytes).length = off + bytes.length := by
    simp only [length_append,length_take]; omega
  rw [overwrite,drop_append,hl,drop_eq_nil_of_le (by omega),nil_append, drop_drop]
  congr 1
  omega

lemma overwrite_range {start : Nat} (h : start + n ≤ off ∨ off + bytes.length ≤ start)
    (ho : off ≤ ct.length) :
    ((overwrite ct off bytes).drop start).take n = (ct.drop start).take n := by
  rcases h with h | h
  · rw [take_drop,take_drop,overwrite_take h ho]
  · rw [overwrite_drop h ho]

lemma overwrite_drop_within {cut : Nat} (h : cut ≤ ct.length) :
    (overwrite ct (cut + off) bytes).drop cut = overwrite (ct.drop cut) off bytes := by
  have hc : cut ≤ (ct.take (cut + off)).length := by
    simp only [length_take]
    omega
  simp only [overwrite,append_assoc]
  rw [drop_append_of_le_length hc,drop_take,Nat.add_sub_cancel_left,drop_drop, Nat.add_assoc]

lemma overwrite_at (h : off ≤ ct.length) :
    ((overwrite ct off bytes).drop off).take bytes.length = bytes := by
  have hl : (ct.take off).length = off := by simpa using h
  rw [overwrite,append_assoc,drop_left' hl]
  exact take_left' rfl

lemma take_drop_of_take {a b : Bytes} {start length : Nat} (h : a.take n = b.take n)
    (hn : start + length ≤ n) : (a.drop start).take length = (b.drop start).take length := by
  have := congrArg (fun bytes => (bytes.drop start).take length) h
  simpa [drop_take,take_take,Nat.min_eq_left (Nat.le_sub_of_add_le' hn)] using this

lemma eq_of_map_eq {α β : Type} {f : α → β} {l l' : List α}
    (hi : ∀ a ∈ l, ∀ b ∈ l', f a = f b → a = b) (h : l.map f = l'.map f) : l = l' := by
  induction l generalizing l' with
  | nil => exact (map_eq_nil_iff.mp h.symm).symm
  | cons a rest ih =>
    match l', hi, h with
    | [], _, h => cases h
    | b :: rest', hi, h =>
      rw [map_cons,map_cons,cons.injEq] at h
      rw [hi a mem_cons_self b mem_cons_self h.1,ih (fun x hx y hy =>
        hi x (mem_cons_of_mem a hx) y (mem_cons_of_mem b hy)) h.2]

end Astrolune.Lib
