import Astrolune.Codec.Reads

namespace Astrolune.Codec
open Lib List

namespace Decoder

variable {bs rest : Bytes}

variable {n : Nat}

lemma readFixed_run_ok {b : Fixed n} :
    (readFixed n).run bs = .ok (b,rest) ↔ bs = b.1 ++ rest := by
  constructor
  · intro h
    simp only [StateT.run,readFixed] at h
    split at h
    · cases h
      exact (take_append_drop n bs).symm
    · cases h
  · rintro rfl
    exact run_readFixed b rest

lemma readU8_run_ok {b : UInt8} : readU8.run bs = .ok (b,rest) ↔ bs = [b] ++ rest := by
  constructor
  · intro h
    cases bs with
    | nil => cases h
    | cons first more =>
      cases h
      rfl
  · rintro rfl
    rfl

lemma digits_run_ok {α : Type} {ofNat : Nat → α} {encode : α → Bytes}
    (hi : ∀ b : Bytes, b.length = n → encode (ofNat (leNat b)) = b)
    (hr : ∀ a rest, (do return ofNat (leNat (← readExact n)) : Decoder α).run (encode a ++ rest) =
      .ok (a,rest)) {a : α} :
    (do return ofNat (leNat (← readExact n)) : Decoder α).run bs = .ok (a,rest) ↔
      bs = encode a ++ rest := by
  constructor
  · intro h
    obtain ⟨b,middle,hb,hp⟩ := Reader.bind_run_ok.mp h
    obtain ⟨hl,rfl⟩ := readExact_run_ok.mp hb
    obtain ⟨rfl,rfl⟩ := Reader.pure_run_ok.mp hp
    rw [hi b hl]
  · rintro rfl
    exact hr a rest

lemma readU16_run_ok {n : UInt16} :
    readU16.run bs = .ok (n,rest) ↔ bs = u16Bytes n ++ rest := by
  refine digits_run_ok (fun b hb => ?_) run_readU16
  have hl := leNat_lt b
  rw [hb] at hl
  rw [u16Bytes,UInt16.toNat_ofNat_of_lt' hl,← hb,leBytes_leNat]

lemma readU32_run_ok {n : UInt32} :
    readU32.run bs = .ok (n,rest) ↔ bs = u32Bytes n ++ rest := by
  refine digits_run_ok (fun b hb => ?_) run_readU32
  have hl := leNat_lt b
  rw [hb] at hl
  rw [u32Bytes,UInt32.toNat_ofNat_of_lt' hl,← hb,leBytes_leNat]

lemma readU64_run_ok {n : UInt64} :
    readU64.run bs = .ok (n,rest) ↔ bs = u64Bytes n ++ rest := by
  refine digits_run_ok (fun b hb => ?_) run_readU64
  have hl := leNat_lt b
  rw [hb] at hl
  rw [u64Bytes,UInt64.toNat_ofNat_of_lt' hl,← hb,leBytes_leNat]

lemma leBytes_eq_u64 (h : n < 2 ^ 64) : leBytes 8 n = u64Bytes (UInt64.ofNat n) := by
  rw [u64Bytes,UInt64.toNat_ofNat_of_lt' h]

lemma finish_run_ok {u : Unit} : finish.run bs = .ok (u,rest) ↔ bs = [] ∧ rest = [] := by
  constructor
  · intro h
    cases bs with
    | nil =>
      cases h
      exact ⟨rfl,rfl⟩
    | cons first more => cases h
  · rintro ⟨rfl,rfl⟩
    rfl

def expect (e : DecodeError) (magic : Bytes) : Decoder Unit := do
  let found ← readExact magic.length
  Reader.check e (found = magic)

lemma expect_run_ok {e : DecodeError} {magic : Bytes} {u : Unit} :
    (expect e magic).run bs = .ok (u,rest) ↔ bs = magic ++ rest := by
  simp only [expect,Reader.bind_run_ok,readExact_run_ok,Reader.check_run_ok]
  constructor
  · rintro ⟨_,_,⟨_,rfl⟩,rfl,rfl⟩
    rfl
  · rintro rfl
    exact ⟨magic,rest,⟨rfl,rfl⟩,rfl,rfl⟩

def readU128 : Decoder Nat := do return leNat (← readExact 16)

lemma readU128_run_ok :
    readU128.run bs = .ok (n,rest) ↔ n < 2 ^ 128 ∧ bs = leBytes 16 n ++ rest := by
  simp only [readU128,Reader.bind_run_ok,readExact_run_ok,Reader.pure_run_ok]
  constructor
  · rintro ⟨b,_,⟨hb,rfl⟩,rfl,rfl⟩
    have hl := leNat_lt b
    rw [hb] at hl
    exact ⟨hl,by rw [← hb,leBytes_leNat]⟩
  · rintro ⟨hn,rfl⟩
    exact ⟨_,rest,⟨leBytes_length 16 n,rfl⟩,leNat_leBytes_of_lt hn,rfl⟩

def readDigits (width : Nat) : Decoder Nat := do return leNat (← readExact width)

lemma readDigits_run_ok {width : Nat} : (readDigits width).run bs = .ok (n,rest) ↔
      n < 256 ^ width ∧ bs = leBytes width n ++ rest := by
  simp only [readDigits,Reader.bind_run_ok,readExact_run_ok,Reader.pure_run_ok]
  constructor
  · rintro ⟨b,_,⟨hb,rfl⟩,rfl,rfl⟩
    have hl := leNat_lt b
    rw [hb] at hl
    exact ⟨hl,by rw [← hb,leBytes_leNat]⟩
  · rintro ⟨hn,rfl⟩
    exact ⟨_,rest,⟨leBytes_length width n,rfl⟩,leNat_leBytes_of_lt hn,rfl⟩

def readCounted {α : Type} (width limit minimum : Nat) (d : Decoder α) : Decoder (List α) := do
  let count ← readDigits width
  let left ← remaining
  Reader.check .limitExceeded (count ≤ limit ∧ count ≤ left / minimum)
  Reader.many d count

/-- A byte string of at most `limit` bytes, after its length in four digits. -/
def readFramed (limit : Nat) : Decoder Bytes := do
  let size ← readU32
  Reader.check .limitExceeded (size.toNat ≤ limit)
  readExact size.toNat

def readFramedAs {α : Type} (limit : Nat) (decode : Bytes → Except DecodeError α) : Decoder α := do
  Reader.give (decode (← readFramed limit))

lemma remaining_run_ok : remaining.run bs = .ok (n,rest) ↔ n = bs.length ∧ bs = rest := by
  rw [run_remaining,Except.ok.injEq,Prod.mk.injEq,eq_comm]

end Decoder

def framed (bytes : Bytes) : Bytes := leBytes 4 bytes.length ++ bytes

@[simp] lemma framed_length (bs : Bytes) : (framed bs).length = 4 + bs.length := by
  rw [framed,length_append,leBytes_length]

lemma Decoder.readFramed_run_ok {lim : Nat} {bs b rest : Bytes} :
    (readFramed lim).run bs = .ok (b,rest) ↔
      (b.length ≤ lim ∧ b.length < 2 ^ 32) ∧ bs = framed b ++ rest := by
  simp only [readFramed,Reader.bind_run_ok,readU32_run_ok,Reader.check_run_ok,readExact_run_ok,
    framed,append_assoc]
  constructor
  · rintro ⟨size,_,rfl,_,_,⟨hs,rfl⟩,hb,rfl⟩
    rw [hb]
    exact ⟨⟨hs,size.toNat_lt⟩,rfl⟩
  · rintro ⟨⟨hl,hf⟩,rfl⟩
    have hs : (UInt32.ofNat b.length).toNat = b.length := UInt32.toNat_ofNat_of_lt' hf
    refine ⟨UInt32.ofNat b.length,b ++ rest,?_,(),_,⟨hs.symm ▸ hl,rfl⟩,hs.symm,rfl⟩
    rw [u32Bytes,hs]

namespace Reader

variable {ε α : Type} {bs rest : Bytes} {a : α}

lemma give_run_ok {x : Except ε α} :
    (give x).run bs = .ok (a,rest) ↔ x = .ok a ∧ bs = rest := by
  cases x with
  | error e => simp [give,StateT.run,Except.map]
  | ok b => simp [give,StateT.run,Except.map]

lemma whole_eq_ok {d : Decoder α} : whole d bs = .ok a ↔ d.run bs = .ok (a,[]) := by
  simp only [whole,bind_eq_ok,pure_ok_iff,Prod.exists]
  constructor
  · rintro ⟨_,last,h,rfl⟩
    obtain ⟨b,middle,hd,h⟩ := bind_run_ok.mp h
    obtain ⟨_,end',hf,h⟩ := bind_run_ok.mp h
    obtain ⟨rfl,rfl⟩ := Decoder.finish_run_ok.mp hf
    obtain ⟨rfl,rfl⟩ := pure_run_ok.mp h
    exact hd
  · intro h
    exact ⟨a,[],bind_run_ok.mpr ⟨a,[],h,rfl⟩,rfl⟩

end Reader

def Exact {ε α : Type} (d : Reader ε α) (encode : α → Bytes) (P : α → Prop) : Prop :=
  ∀ bytes a rest, d.run bytes = .ok (a, rest) ↔ P a ∧ bytes = encode a ++ rest

def Decodes {ε α : Type} (decode : Bytes → Except ε α) (encode : α → Bytes) (P : α → Prop) : Prop :=
  ∀ bytes a, decode bytes = .ok a ↔ P a ∧ bytes = encode a

lemma Decodes.mapM {ε α : Type} {decode : Bytes → Except ε α} {encode : α → Bytes} {P : α → Prop}
    (h : Decodes decode encode P) {slices : List Bytes} {l : List α} :
    slices.mapM decode = .ok l ↔ (∀ a ∈ l, P a) ∧ slices = l.map encode := by
  induction slices generalizing l with
  | nil =>
    simp only [mapM_nil,pure_ok_iff]
    constructor
    · rintro rfl
      exact ⟨forall_mem_nil _,rfl⟩
    · rintro ⟨-,hn⟩
      exact (map_eq_nil_iff.mp hn.symm).symm
  | cons slice slices ih =>
    simp only [mapM_cons,bind_eq_ok,h slice,ih,pure_ok_iff]
    constructor
    · rintro ⟨a,⟨ha,rfl⟩,l,⟨hl,rfl⟩,rfl⟩
      exact ⟨forall_mem_cons.mpr ⟨ha,hl⟩,rfl⟩
    · rintro ⟨hal,hc⟩
      obtain ⟨a,l,rfl,rfl,rfl⟩ := map_eq_cons_iff.mp hc.symm
      obtain ⟨ha,hl⟩ := forall_mem_cons.mp hal
      exact ⟨a,⟨ha,rfl⟩,l,⟨hl,rfl⟩,rfl⟩

namespace Exact

variable {ε α : Type} {d : Reader ε α} {encode : α → Bytes} {P : α → Prop} {bs : Bytes} {a : α}

lemma of (hr : ∀ a, P a → Reads d (encode a) a)
    (ht : ∀ bs a rest, d.run bs = .ok (a,rest) → P a ∧ bs = encode a ++ rest) :
    Exact d encode P := by
  intro bs a rest
  refine ⟨ht bs a rest,?_⟩
  rintro ⟨ha,rfl⟩
  exact hr a ha rest

lemma reads (h : Exact d encode P) (ha : P a) : Reads d (encode a) a :=
  fun rest => (h _ a rest).mpr ⟨ha,rfl⟩

lemma readFixed (n : Nat) : Exact (Decoder.readFixed n) Subtype.val fun _ => True :=
  fun _ _ _ => Decoder.readFixed_run_ok.trans (iff_of_eq (true_and _)).symm

lemma many (h : Exact d encode P) (n : Nat) :
    Exact (d.many n) (·.flatMap encode) fun l => l.length = n ∧ ∀ a ∈ l, P a := by
  intro bs l rest
  induction n generalizing bs l rest with
  | zero =>
    simp only [Reader.many,Reader.pure_run_ok,length_eq_zero_iff]
    constructor
    · rintro ⟨rfl,rfl⟩
      exact ⟨⟨rfl,forall_mem_nil _⟩,rfl⟩
    · rintro ⟨⟨rfl,-⟩,rfl⟩
      exact ⟨rfl,rfl⟩
  | succ n ih =>
    simp only [Reader.many,Reader.bind_run_ok,Reader.pure_run_ok,h _ _ _,ih]
    constructor
    · rintro ⟨a,_,⟨ha,rfl⟩,l,_,⟨⟨hle,hl⟩,rfl⟩,rfl,rfl⟩
      refine ⟨⟨congrArg (· + 1) hle,forall_mem_cons.mpr ⟨ha,hl⟩⟩,?_⟩
      rw [flatMap_cons,append_assoc]
    · rintro ⟨⟨hle,hl⟩,rfl⟩
      cases l with
      | nil => cases hle
      | cons a l =>
        obtain ⟨ha,hl⟩ := forall_mem_cons.mp hl
        refine ⟨a,l.flatMap encode ++ rest,⟨ha,?_⟩,l,rest, ⟨⟨Nat.succ.inj hle,hl⟩,rfl⟩,rfl,rfl⟩
        rw [flatMap_cons,append_assoc]

lemma whole {d : Decoder α} (h : Exact d encode P) :
    Reader.whole d bs = .ok a ↔ P a ∧ bs = encode a := by
  rw [Reader.whole_eq_ok,h bs a [],append_nil]

variable {rest : Bytes} {decode : Bytes → Except DecodeError α} {lim minimum : Nat} {l : List α}

lemma run_one (h : Exact d encode P) {β : Type} {f : α → β} {b : β} :
    (d >>= fun a => pure (f a)).run bs = .ok (b,rest) ↔
      ∃ a, P a ∧ bs = encode a ++ rest ∧ f a = b := by
  simp only [Reader.bind_run_ok,Reader.pure_run_ok,h _ _ _]
  constructor
  · rintro ⟨a,_,⟨ha,rfl⟩,hb,rfl⟩
    exact ⟨a,ha,rfl,hb⟩
  · rintro ⟨a,ha,rfl,hb⟩
    exact ⟨a,rest,⟨ha,rfl⟩,hb,rfl⟩

lemma run_next (h : Exact d encode P) {β : Type} {k : α → Reader ε β} {b : β} :
    (d >>= k).run bs = .ok (b,rest) ↔
      ∃ a middle, P a ∧ bs = encode a ++ middle ∧ (k a).run middle = .ok (b,rest) := by
  simp only [Reader.bind_run_ok,h _ _ _,and_assoc]

lemma sliced {n : Nat}
    (h : Decodes decode encode P) (hn : ∀ a, P a → (encode a).length = n) :
    Exact (do let bs ← Decoder.readExact n; Reader.give (decode bs)) encode P := by
  intro bs a rest
  simp only [Reader.bind_run_ok,Decoder.readExact_run_ok,Reader.give_run_ok,h _ a]
  constructor
  · rintro ⟨_,_,⟨_,rfl⟩,⟨ha,rfl⟩,rfl⟩
    exact ⟨ha,rfl⟩
  · rintro ⟨ha,rfl⟩
    exact ⟨encode a,rest,⟨hn a ha,rfl⟩,⟨ha,rfl⟩,rfl⟩

lemma framedAs (hli : lim < 2 ^ 32)
    (h : Decodes decode encode P) : Exact (Decoder.readFramedAs lim decode)
      (fun a => framed (encode a)) fun a => P a ∧ (encode a).length ≤ lim := by
  intro bs a rest
  simp only [Decoder.readFramedAs,Reader.bind_run_ok,Decoder.readFramed_run_ok,Reader.give_run_ok,
    h _ _]
  constructor
  · rintro ⟨_,_,⟨⟨hl,_⟩,rfl⟩,⟨ha,rfl⟩,rfl⟩
    exact ⟨⟨ha,hl⟩,rfl⟩
  · rintro ⟨⟨ha,hl⟩,rfl⟩
    exact ⟨_,_,⟨⟨hl,Nat.lt_of_le_of_lt hl hli⟩,rfl⟩,⟨ha,rfl⟩,rfl⟩

lemma le_length_flatMap (h : ∀ a ∈ l, minimum ≤ (encode a).length) :
    l.length * minimum ≤ (l.flatMap encode).length := by
  induction l with
  | nil => simp
  | cons a rest ih =>
    have hf := h a mem_cons_self
    have hr := ih fun b hb => h b (mem_cons_of_mem _ hb)
    rw [flatMap_cons,length_append,length_cons,Nat.succ_mul]
    omega

lemma length_flatMap_le {maximum : Nat} (h : ∀ a ∈ l, (encode a).length ≤ maximum) :
    (l.flatMap encode).length ≤ l.length * maximum := by
  induction l with
  | nil => simp
  | cons a rest ih =>
    have hf := h a mem_cons_self
    have hr := ih fun b hb => h b (mem_cons_of_mem _ hb)
    rw [flatMap_cons,length_append,length_cons,Nat.succ_mul]
    omega

lemma counted {width : Nat} {d : Decoder α} (h : Exact d encode P)
    (hli : lim < 256 ^ width) (hp : 0 < minimum)
    (hm : ∀ a, P a → minimum ≤ (encode a).length) :
    Exact (Decoder.readCounted width lim minimum d)
      (fun l => leBytes width l.length ++ l.flatMap encode)
      fun l => l.length ≤ lim ∧ ∀ a ∈ l, P a := by
  intro bs l rest
  simp only [Decoder.readCounted,Reader.bind_run_ok,Decoder.readDigits_run_ok,
    Decoder.remaining_run_ok,Reader.check_run_ok,h.many _ _ _ _,append_assoc]
  constructor
  · rintro ⟨_,_,⟨_,rfl⟩,_,_,⟨rfl,rfl⟩,_,_,⟨⟨hl,_⟩,rfl⟩,⟨rfl,hal⟩,rfl⟩
    exact ⟨⟨hl,hal⟩,rfl⟩
  · rintro ⟨⟨hl,hal⟩,rfl⟩
    have hr : l.length ≤ (l.flatMap encode ++ rest).length / minimum := by
      have hlo := le_length_flatMap fun a ha => hm a (hal a ha)
      rw [Nat.le_div_iff_mul_le hp,length_append]
      omega
    exact ⟨l.length,_,⟨Nat.lt_of_le_of_lt hl hli,rfl⟩,_,_,⟨rfl,rfl⟩,(),_, ⟨⟨hl,hr⟩,rfl⟩,⟨rfl,hal⟩,rfl⟩

end Exact

def Writes {ε α : Type} (write : α → Except ε Bytes) (raw : α → Bytes) (P : α → Prop) : Prop :=
  ∀ a bytes, write a = .ok bytes ↔ P a ∧ bytes = raw a

lemma foldlM_appends {ε α : Type} {step : Bytes → α → Except ε Bytes} {raw : α → Bytes}
    {P : α → Prop} {lim : Nat}
    (hst : ∀ start a out, step start a = .ok out ↔
      P a ∧ (start ++ raw a).length ≤ lim ∧ out = start ++ raw a)
    {l : List α} {start out : Bytes} (hs : start.length ≤ lim) :
    l.foldlM step start = .ok out ↔
      (∀ a ∈ l, P a) ∧ (start ++ l.flatMap raw).length ≤ lim ∧ out = start ++ l.flatMap raw := by
  induction l generalizing start with
  | nil =>
    simp only [foldlM_nil,pure_ok_iff,flatMap_nil,append_nil]
    exact ⟨fun h => ⟨forall_mem_nil _,hs,h.symm⟩,fun h => h.2.2.symm⟩
  | cons a rest ih =>
    rw [foldlM_cons,bind_eq_ok,flatMap_cons,← append_assoc]
    constructor
    · rintro ⟨next,hf,hr⟩
      obtain ⟨ha,hl,rfl⟩ := (hst _ _ _).mp hf
      obtain ⟨hal,hfi,rfl⟩ := (ih hl).mp hr
      exact ⟨forall_mem_cons.mpr ⟨ha,hal⟩,hfi,rfl⟩
    · rintro ⟨hal,hfi,rfl⟩
      obtain ⟨ha,hal⟩ := forall_mem_cons.mp hal
      have hl : (start ++ raw a).length ≤ lim := by
        rw [length_append] at hfi
        omega
      exact ⟨_,(hst _ _ _).mpr ⟨ha,hl,rfl⟩,(ih hl).mpr ⟨hal,hfi,rfl⟩⟩

lemma Writes.mapM {ε α : Type} {write : α → Except ε Bytes} {raw : α → Bytes} {P : α → Prop}
    (h : Writes write raw P) {l : List α} {out : List Bytes} :
    l.mapM write = .ok out ↔ (∀ a ∈ l, P a) ∧ out = l.map raw := by
  induction l generalizing out with
  | nil =>
    simp only [mapM_nil,pure_ok_iff,map_nil]
    exact ⟨fun h => ⟨forall_mem_nil _,h.symm⟩,fun h => h.2.symm⟩
  | cons a l ih =>
    simp only [mapM_cons,bind_eq_ok,h a,ih,pure_ok_iff,forall_mem_cons,map_cons]
    constructor
    · rintro ⟨_,⟨ha,rfl⟩,_,⟨hl,rfl⟩,rfl⟩
      exact ⟨⟨ha,hl⟩,rfl⟩
    · rintro ⟨⟨ha,hl⟩,rfl⟩
      exact ⟨_,⟨ha,rfl⟩,_,⟨hl,rfl⟩,rfl⟩

/-- A format that loses nothing: what is produced is read back from what is written for it, and
what is read is written again as it was. -/
structure RoundTrips {ε ε' α : Type} (Produced : α → Prop) (write : α → Except ε Bytes)
    (read : Bytes → Except ε' α) : Prop where
  accepted : ∀ a, Produced a → ∃ bytes, write a = .ok bytes ∧ read bytes = .ok a
  canonical : ∀ bytes a, read bytes = .ok a → write a = .ok bytes

lemma RoundTrips.of {ε ε' α : Type} {Produced P : α → Prop} {write : α → Except ε Bytes}
    {read : Bytes → Except ε' α} {raw : α → Bytes} (hw : ∀ a, P a → write a = .ok (raw a))
    (hr : Decodes read raw P) (hp : ∀ a, Produced a → P a) :
    RoundTrips Produced write read where
  accepted a ha := ⟨raw a,hw a (hp a ha),(hr _ a).mpr ⟨hp a ha,rfl⟩⟩
  canonical bs a h := by
    obtain ⟨ha,rfl⟩ := (hr bs a).mp h
    exact hw a ha

end Astrolune.Codec
