import Astrolune.Types.Hash

namespace Astrolune
open Lib List

def domainInput (domain message : Bytes) : Bytes :=
  ascii "astrolune.v1." ++ leBytes 8 domain.length ++ domain ++ message

lemma domainInput_injective {domain domain' msg message' : Bytes}
    (hd : domain.length < 2 ^ 64) (hd' : domain'.length < 2 ^ 64)
    (h : domainInput domain msg = domainInput domain' message') :
    domain = domain' ∧ msg = message' := by
  simp only [domainInput,append_assoc] at h
  have hr := append_cancel_left h
  obtain ⟨hl,hb⟩ := append_inj hr (by simp)
  have hs : domain.length = domain'.length :=
    leBytes_injective (by simpa using hd) (by simpa using hd') hl
  exact append_inj hb hs

lemma domainInput_pair_injective {domain : Bytes} (hd : domain.length < 2 ^ 64)
    {p q : Hash256 × Hash256}
    (h : domainInput domain (p.1.1 ++ p.2.1) = domainInput domain (q.1.1 ++ q.2.1)) : p = q := by
  obtain ⟨-,hm⟩ := domainInput_injective hd hd h
  obtain ⟨hl,hr⟩ := append_inj hm (p.1.2.trans q.1.2.symm)
  exact Prod.ext (Subtype.ext hl) (Subtype.ext hr)

def CollisionFree (H : Hasher) (hashed : Bytes → Prop) : Prop :=
  ∀ x y, hashed x → hashed y → H x = H y → x = y

lemma CollisionFree.eq_of_map {H : Hasher} {hashed : Bytes → Prop}
    (hf : CollisionFree H hashed) {l l' : List Bytes} (hl : ∀ x ∈ l, hashed x)
    (hl' : ∀ x ∈ l', hashed x) (h : l.map H = l'.map H) : l = l' :=
  eq_of_map_eq (fun x hx y hy => hf x y (hl x hx) (hl' y hy)) h

def residueHash (bytes : Bytes) : Hash256 :=
  ⟨leBytes 32 (leNat bytes % (2 ^ 255 - 19)), leBytes_length 32 _⟩

end Astrolune
