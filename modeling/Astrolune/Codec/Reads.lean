import Astrolune.Codec.Decoder

namespace Astrolune.Codec
open Lib List

/-- A cursor whose failures are of any type; a `Decoder` is one that fails with a `DecodeError`. -/
abbrev Reader (ε α : Type) := StateT Bytes (Except ε) α

def blob (bytes : Bytes) : Bytes := leBytes 8 bytes.length ++ bytes

@[simp] lemma blob_length (bs : Bytes) : (blob bs).length = 8 + bs.length := by
  simp [blob]

namespace Reader

variable {ε ε' α : Type}

/-- Fails with `e` unless the condition holds; nothing is read. -/
def check (e : ε) (p : Prop) [Decidable p] : Reader ε Unit := fun rest =>
  if p then .ok ((), rest) else .error e

def failingAs (e : ε') (d : Reader ε α) : Reader ε' α := fun rest => failAs e (d rest)

def give (x : Except ε α) : Reader ε α := fun rest => x.map fun a => (a, rest)

/-- The same read, `n` times over. -/
def many (d : Reader ε α) : Nat → Reader ε (List α)
  | 0 => pure []
  | n+1 => do
    let a ← d
    let rest ← many d n
    return a :: rest

/-- Reads all of `bytes` and rejects what is left over. -/
def whole (d : Decoder α) (bytes : Bytes) : Except DecodeError α := do
  let (a, _) ← (do let a ← d; Decoder.finish; pure a : Decoder α).run bytes
  return a

variable {bs rest : Bytes}

lemma bind_run_ok {β : Type} {d : Reader ε α} {f : α → Reader ε β} {b : β} :
    (d >>= f).run bs = .ok (b,rest) ↔
      ∃ a middle, d.run bs = .ok (a,middle) ∧ (f a).run middle = .ok (b,rest) := by
  rw [StateT.run_bind,bind_eq_ok]
  exact ⟨fun ⟨(a,middle),ha,hb⟩ => ⟨a,middle,ha,hb⟩, fun ⟨a,middle,ha,hb⟩ => ⟨(a,middle),ha,hb⟩⟩

lemma pure_run_ok {a b : α} :
    (pure a : Reader ε α).run bs = .ok (b,rest) ↔ a = b ∧ bs = rest := by
  simp [StateT.run_pure]

lemma check_run_ok {e : ε} {p : Prop} [Decidable p] {u : Unit} :
    (check e p).run bs = .ok (u,rest) ↔ p ∧ bs = rest := by
  unfold check
  simp only [StateT.run]
  split <;> simp [*]

lemma failingAs_run_ok {e : ε'} {d : Reader ε α} {a : α} :
    (d.failingAs e).run bs = .ok (a,rest) ↔ d.run bs = .ok (a,rest) := by
  unfold failingAs
  simp only [StateT.run]
  constructor
  · exact failAs_eq_ok.mp
  · intro h
    rw [h,failAs_ok]

end Reader

namespace Decoder

variable {bs rest : Bytes}

lemma readExact_run_ok {n : Nat} {b : Bytes} :
    (readExact n).run bs = .ok (b,rest) ↔ b.length = n ∧ bs = b ++ rest := by
  constructor
  · intro h
    simp only [StateT.run,readExact] at h
    split at h
    · next hn =>
      cases h
      exact ⟨length_take_of_le hn,(take_append_drop n bs).symm⟩
    · cases h
  · rintro ⟨hn,rfl⟩
    exact run_readExact hn

lemma length_of_readU64 {n : UInt64} (h : readU64.run bs = .ok (n,rest)) :
    bs.length = 8 + rest.length := by
  obtain ⟨b,middle,hr,hp⟩ := Reader.bind_run_ok.mp h
  obtain ⟨hl,rfl⟩ := readExact_run_ok.mp hr
  obtain ⟨_,rfl⟩ := Reader.pure_run_ok.mp hp
  rw [length_append,hl]

lemma length_of_readU16 {n : UInt16} (h : readU16.run bs = .ok (n,rest)) :
    bs.length = 2 + rest.length := by
  obtain ⟨b,middle,hr,hp⟩ := Reader.bind_run_ok.mp h
  obtain ⟨hl,rfl⟩ := readExact_run_ok.mp hr
  obtain ⟨_,rfl⟩ := Reader.pure_run_ok.mp hp
  rw [length_append,hl]

lemma length_of_readFixed {n : Nat} {b : Fixed n} (h : (readFixed n).run bs = .ok (b,rest)) :
    bs.length = n + rest.length := by
  simp only [StateT.run,readFixed] at h
  split at h
  · next hn =>
    cases h
    rw [length_drop]
    omega
  · cases h

end Decoder

def Reads {ε α : Type} (d : Reader ε α) (bytes : Bytes) (a : α) : Prop :=
  ∀ rest, d.run (bytes ++ rest) = .ok (a, rest)

namespace Reads

variable {ε ε' α β : Type} {x y bs : Bytes} {a : α} {b : β}

lemma pure : Reads (Pure.pure a : Reader ε α) [] a := fun _ => rfl

lemma bind {d : Reader ε α} {f : α → Reader ε β} (hd : Reads d x a) (hf : Reads (f a) y b) :
    Reads (d >>= f) (x ++ y) b := by
  intro rest
  rw [append_assoc,StateT.run_bind,hd]
  exact hf rest

variable {d : Reader ε α} {f : α → Reader ε β} {e : ε} {p : Prop}

lemma run_bind (hd : Reads d x a) (f : α → Reader ε β) (rest : Bytes) :
    (d >>= f).run (x ++ rest) = (f a).run rest := by
  rw [StateT.run_bind,hd]
  rfl

lemma run_bind_nil (hd : Reads d [] a) (f : α → Reader ε β) (rest : Bytes) :
    (d >>= f).run rest = (f a).run rest := hd.run_bind f rest

lemma bind_nil (hd : Reads d [] a) (hf : Reads (f a) y b) : Reads (d >>= f) y b := hd.bind hf

lemma bind_end (hd : Reads d x a) (hf : Reads (f a) [] b) : Reads (d >>= f) x b := by
  have h := hd.bind hf
  rwa [append_nil] at h

lemma bind_pure {f : α → β} (hd : Reads d x a) :
    Reads (d >>= fun a => Pure.pure (f a)) x (f a) := hd.bind_end Reads.pure

lemma check [Decidable p] (hp : p) : Reads (Reader.check e p) [] () := fun _ => if_pos hp

lemma run_check [Decidable p] (hp : p) (f : Unit → Reader ε β)
    (rest : Bytes) : (Reader.check e p >>= f).run rest = (f ()).run rest :=
  (check hp).run_bind_nil f rest

lemma after [Decidable p] {d : Reader ε β} (hp : p) (hd : Reads d y b) :
    Reads (Reader.check e p >>= fun _ => d) y b := (check hp).bind_nil hd

lemma failingAs (e : ε') (hd : Reads d x a) : Reads (d.failingAs e) x a := by
  intro rest
  have := hd rest
  simp only [StateT.run] at this
  simp [Reader.failingAs,StateT.run,this]

lemma give {r : Except ε α} (hr : r = .ok a) : Reads (Reader.give r) [] a := by
  intro rest
  simp [Reader.give,StateT.run,hr,Except.map]

lemma remaining {f : Nat → Decoder β} (hf : ∀ n, bs.length ≤ n → Reads (f n) bs b) :
    Reads (Decoder.remaining >>= f) bs b := by
  intro rest
  rw [StateT.run_bind,Decoder.run_remaining]
  exact hf _ (by simp) rest

lemma readExact {n : Nat} (h : bs.length = n) : Reads (Decoder.readExact n) bs bs :=
  fun _ => Decoder.run_readExact h

lemma readFixed {n : Nat} (fr : Fixed n) : Reads (Decoder.readFixed n) fr.1 fr :=
  Decoder.run_readFixed fr

lemma readU8 (byte : UInt8) : Reads Decoder.readU8 [byte] byte := Decoder.run_readU8 byte

lemma readU16 (n : UInt16) : Reads Decoder.readU16 (u16Bytes n) n := Decoder.run_readU16 n

lemma readU32 (n : UInt32) : Reads Decoder.readU32 (u32Bytes n) n := Decoder.run_readU32 n

lemma readU64 (n : UInt64) : Reads Decoder.readU64 (u64Bytes n) n := Decoder.run_readU64 n

lemma many {encode : α → Bytes} {l : List α}
    (h : ∀ a ∈ l, Reads d (encode a) a) : Reads (d.many l.length) (l.flatMap encode) l := by
  induction l with
  | nil => exact Reads.pure
  | cons a l ih =>
    have hr := ih fun b hb => h b (mem_cons_of_mem a hb)
    exact (h a mem_cons_self).bind hr.bind_pure

lemma whole {d : Decoder α} (hd : Reads d bs a) : Reader.whole d bs = .ok a := by
  have hr := hd []
  rw [append_nil] at hr
  simp [Reader.whole,StateT.run_bind,hr]

lemma unique {b : α} (hd : Reads d bs a) (hd' : Reads d bs b) : a = b :=
  congrArg Prod.fst (Except.ok.inj ((hd []).symm.trans (hd' [])))

end Reads
end Astrolune.Codec
