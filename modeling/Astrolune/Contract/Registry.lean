import Astrolune.Codec.Exact
import Astrolune.Lib.Run
import Astrolune.Types.Hash

namespace Astrolune.Contract
open Lib Codec Decoder Reader List Function

def maxName : Nat := 63
def maxRecord : Nat := 256
def maxLease : Nat := 379
def maxCall : Nat := 340
def maxDuration : Nat := 1000000

def reserved : List Bytes :=
  ["admin", "root", "system", "astrolune", "localhost", "daemon", "validator", "consensus", "genesis",
    "null", "undefined", "www", "api", "rpc", "p2p"].map ascii

/-- `outOfBounds` stands for the panic of a write past the end of a fixed buffer. -/
inductive RegistryError where
  | encoding
  | name
  | occupied
  | expired
  | owner
  | duration
  | outOfBounds
  deriving DecidableEq, Repr

structure RegistryRecord where
  kind : UInt8
  value : Bytes
  deriving DecidableEq

def RegistryRecord.validate (record : RegistryRecord) : Except RegistryError Unit :=
  ensure .encoding (record.kind = 0 ∧ record.value.length = 32 ∧ record.value.any (· ≠ 0) ∨
    record.kind = 1 ∧ record.value ≠ [] ∧ record.value.length ≤ maxRecord ∧
      record.value.all fun b => 32 ≤ b ∧ b ≤ 126)

/-- The letters that `0`, `1`, `3`, `5` and `8` are taken for. -/
def skeleton (byte : UInt8) : UInt8 :=
  if byte = 48 then 111
  else if byte = 49 then 108
  else if byte = 51 then 101
  else if byte = 53 then 115
  else if byte = 56 then 98
  else byte

def validateName (name : Bytes) : Except RegistryError Unit :=
  ensure .name (name ≠ [] ∧ name.length ≤ maxName ∧ name.head? ≠ some 45 ∧ name.getLast? ≠ some 45 ∧
    (name.all fun b => 97 ≤ b ∧ b ≤ 122 ∨ 48 ≤ b ∧ b ≤ 57 ∨ b = 45) ∧
    ¬reserved.any fun other => name.length = other.length ∧
      (name.zip other).all fun p => skeleton p.1 = skeleton p.2)

def registryKey (name : Bytes) : Except RegistryError Bytes := do
  validateName name
  return ascii "dns/v1/" ++ name.map skeleton

def readName : Reader RegistryError Bytes := do
  let count ← failingAs .encoding readU8
  let name ← failingAs .encoding (readExact count.toNat)
  give (validateName name)
  return name

def readNumber : Reader RegistryError UInt64 := failingAs .encoding readU64

def readRecord : Reader RegistryError RegistryRecord := do
  let kind ← failingAs .encoding readU8
  let length ← failingAs .encoding readU16
  let value ← failingAs .encoding (readExact length.toNat)
  give (RegistryRecord.validate ⟨kind, value⟩)
  return ⟨kind, value⟩

def readMagic (magic : Bytes) : Reader RegistryError Unit := failingAs .encoding (expect .unsupported magic)

/-- `copy_from_slice` behind what a buffer of `capacity` bytes holds. -/
def append (capacity : Nat) (out bytes : Bytes) : Except RegistryError Bytes := do
  ensure .outOfBounds (out.length + bytes.length ≤ capacity)
  return out ++ bytes

structure Lease where
  name : Bytes
  owner : Fixed 32
  issued : UInt64
  expires : UInt64
  record : RegistryRecord
  deriving DecidableEq

namespace Lease

def read : Reader RegistryError Lease := do
  readMagic (ascii "ALDNSL01")
  let name ← readName
  let owner ← failingAs .encoding (readFixed 32)
  let issued ← readNumber
  let expires ← readNumber
  let record ← readRecord
  failingAs .encoding finish
  check .encoding (owner ≠ Fixed.fill 32 0 ∧ issued ≠ 0 ∧ issued < expires)
  return ⟨name, owner, issued, expires, record⟩

def decode (bytes : Bytes) : Except RegistryError Lease := do
  let (lease, _) ← read.run bytes
  return lease

def pieces (lease : Lease) : List Bytes :=
  [ascii "ALDNSL01", [UInt8.ofNat lease.name.length], lease.name, lease.owner.1, u64Bytes lease.issued,
    u64Bytes lease.expires, [lease.record.kind], leBytes 2 lease.record.value.length, lease.record.value]

def encode (lease : Lease) : Except RegistryError Bytes := do
  ensure .name (lease.name.length < 2 ^ 8)
  ensure .encoding (lease.record.value.length < 2 ^ 16)
  lease.pieces.foldlM (append maxLease) []

end Lease

inductive RegistryAction where
  | register (duration : UInt64) (record : RegistryRecord)
  | update (record : RegistryRecord)
  | renew (duration : UInt64)
  | transfer (owner : Fixed 32)
  | release

structure RegistryCall where
  name : Bytes
  action : RegistryAction

def readAction (tag : UInt8) : Reader RegistryError RegistryAction :=
  if tag = 0 then do return .register (← readNumber) (← readRecord)
  else if tag = 1 then do return .update (← readRecord)
  else if tag = 2 then do return .renew (← readNumber)
  else if tag = 3 then do return .transfer (← failingAs .encoding (readFixed 32))
  else if tag = 4 then return .release
  else give (.error .encoding)

namespace RegistryCall

def read : Reader RegistryError RegistryCall := do
  readMagic (ascii "ALDNSC01")
  let tag ← failingAs .encoding readU8
  let name ← readName
  let action ← readAction tag
  failingAs .encoding finish
  return ⟨name, action⟩

def decode (bytes : Bytes) : Except RegistryError RegistryCall := do
  ensure .encoding (bytes.length ≤ maxCall)
  let (call, _) ← read.run bytes
  return call

/-- The tag of an action and what it carries, in the order of the fields. -/
def fields : RegistryAction → UInt8 × Option UInt64 × Option (Fixed 32) × Option RegistryRecord
  | .register duration record => (0, some duration, none, some record)
  | .update record => (1, none, none, some record)
  | .renew duration => (2, some duration, none, none)
  | .transfer owner => (3, none, some owner, none)
  | .release => (4, none, none, none)

def encodeRecord (out : Bytes) : Option RegistryRecord → Except RegistryError Bytes
  | none => .ok out
  | some record => do
    record.validate
    let out ← append maxCall out [record.kind]
    ensure .encoding (record.value.length < 2 ^ 16)
    [leBytes 2 record.value.length, record.value].foldlM (append maxCall) out

def encode (call : RegistryCall) : Except RegistryError Bytes := do
  validateName call.name
  let (tag, duration, owner, record) := fields call.action
  let out ← append maxCall [] (ascii "ALDNSC01")
  ensure .name (call.name.length < 2 ^ 8)
  let out ← ([[tag, UInt8.ofNat call.name.length], call.name] ++ duration.toList.map u64Bytes ++
    owner.toList.map Subtype.val).foldlM (append maxCall) out
  encodeRecord out record

end RegistryCall

def expiry (height duration : UInt64) : Except RegistryError UInt64 := do
  ensure .duration (duration ≠ 0 ∧ duration.toNat ≤ maxDuration)
  ensure .duration (height.toNat + duration.toNat < 2 ^ 64)
  return height + duration

/-- What a call of its owner makes of a live lease; `none` is its deletion. -/
def Lease.amend (lease : Lease) (height : UInt64) : RegistryAction → Except RegistryError (Option Lease)
  | .register _ _ => .error .encoding
  | .update record => do
    record.validate
    return some { lease with record }
  | .renew duration => do
    let expires ← expiry lease.expires duration
    ensure .duration (expires.toNat - height.toNat ≤ maxDuration)
    return some { lease with expires }
  | .transfer owner => do
    ensure .owner (owner ≠ Fixed.fill 32 0)
    return some { lease with owner }
  | .release => .ok none

def decodeAll : Option Bytes → Except RegistryError (Option Lease)
  | none => .ok none
  | some bytes => do return some (← Lease.decode bytes)

def encodeAll : Option Lease → Except RegistryError (Option Bytes)
  | none => .ok none
  | some lease => do return some (← lease.encode)

def nextLease (call : RegistryCall) (live : Option Lease) (caller : Fixed 32) (height : UInt64) :
    Except RegistryError (Option Lease) :=
  match call.action with
  | .register duration record => do
    ensure .occupied (live = none)
    record.validate
    return some ⟨call.name, caller, height, ← expiry height duration, record⟩
  | action => do
    let lease ← okOr .expired (live.filter (·.name = call.name))
    ensure .owner (lease.owner = caller)
    lease.amend height action

def transition (call : RegistryCall) (previous : Option Bytes) (caller : Fixed 32) (height : UInt64) :
    Except RegistryError (Option Bytes) := do
  validateName call.name
  ensure .owner (caller ≠ Fixed.fill 32 0 ∧ height ≠ 0)
  let previous ← decodeAll previous
  encodeAll (← nextLease call (previous.filter (height < ·.expires)) caller height)

structure Request where
  call : RegistryCall
  caller : Fixed 32
  height : UInt64

/-- What is stored under each key, at the height of the last call. -/
structure Registry where
  store : Bytes → Option Bytes
  height : UInt64

namespace Registry

def answer (s : Registry) (r : Request) : Except RegistryError (Bytes × Option Bytes) := do
  let key ← registryKey r.call.name
  return (key, ← transition r.call (s.store key) r.caller r.height)

def step (s : Registry) (r : Request) : Registry :=
  match s.answer r with
  | .ok (key, result) => ⟨update s.store key result, r.height⟩
  | .error _ => ⟨s.store, r.height⟩

/-- Heights are positive and never go back. -/
def Follows (s : Registry) (r : Request) : Prop := 0 < r.height ∧ s.height ≤ r.height

abbrev Reached : Registry → Prop := Reachable step Follows fun s => ∀ key, s.store key = none

def Holds (s : Registry) (key : Bytes) (lease : Lease) : Prop :=
  ∃ bytes, s.store key = some bytes ∧ Lease.decode bytes = .ok lease

end Registry

variable {name out : Bytes} {record : RegistryRecord} {lease : Lease} {cap : Nat}

lemma zip_skeleton_iff {other : Bytes} :
    (name.length = other.length ∧ (name.zip other).all fun p => skeleton p.1 = skeleton p.2) ↔
      name.map skeleton = other.map skeleton := by
  induction name generalizing other with
  | nil => cases other <;> simp
  | cons a rest ih =>
    cases other with
    | nil => simp
    | cons b others =>
      rw [map_cons,map_cons,cons.injEq,← ih,zip_cons_cons,all_cons,
        Bool.and_eq_true,decide_eq_true_eq,length_cons,length_cons,Nat.add_right_cancel_iff]
      exact and_left_comm

lemma registryKey_eq_ok {key : Bytes} : registryKey name = .ok key ↔
    validateName name = .ok () ∧ key = ascii "dns/v1/" ++ name.map skeleton := by
  simp only [registryKey,bind_eq_ok,pure_ok_iff]
  constructor
  · rintro ⟨_,hn,rfl⟩
    exact ⟨hn,rfl⟩
  · rintro ⟨hn,rfl⟩
    exact ⟨(),hn,rfl⟩

lemma not_reserved_of_validateName (h : validateName name = .ok ()) {other : Bytes}
    (ho : other ∈ reserved) :
    name.map skeleton ≠ other.map skeleton := fun hs =>
  (ensure_eq_ok.mp h).2.2.2.2.2 (any_eq_true.mpr ⟨other,ho,decide_eq_true (zip_skeleton_iff.mpr hs)⟩)

lemma length_of_validateName (h : validateName name = .ok ()) : name.length ≤ 63 :=
  (ensure_eq_ok.mp h).2.1

lemma length_of_validate (h : record.validate = .ok ()) : record.value.length ≤ 256 := by
  rcases ensure_eq_ok.mp h with ⟨-,hl,-⟩ | ⟨-,-,hl,-⟩
  · omega
  · exact hl

def nameBytes (name : Bytes) : Bytes := [UInt8.ofNat name.length] ++ name

def recordBytes (record : RegistryRecord) : Bytes :=
  [record.kind] ++ (leBytes 2 record.value.length ++ record.value)

lemma append_of {bs : Bytes} (h : out.length + bs.length ≤ cap) :
    append cap out bs = .ok (out ++ bs) := by
  rw [append,ensure_of h,ok_bind,pure_eq_ok]

lemma foldlM_append {pieces : List Bytes} (h : (out ++ pieces.flatten).length ≤ cap) :
    pieces.foldlM (append cap) out = .ok (out ++ pieces.flatten) := by
  induction pieces generalizing out with
  | nil => simp
  | cons bs rest ih =>
    rw [flatten_cons,← append_assoc] at h ⊢
    have hr : out.length + bs.length ≤ cap := by
      rw [length_append,length_append] at h
      omega
    rw [foldlM_cons,append_of hr,ok_bind,ih h]

lemma reads_magic (magic : Bytes) : Reads (readMagic magic) magic () :=
  Reads.failingAs _ fun _ => expect_run_ok.mpr rfl

lemma reads_number (n : UInt64) : Reads readNumber (u64Bytes n) n := (Reads.readU64 n).failingAs _

lemma reads_name (h : validateName name = .ok ()) : Reads readName (nameBytes name) name := by
  have hl := length_of_validateName h
  have hc : name.length = (UInt8.ofNat name.length).toNat :=
    (UInt8.toNat_ofNat_of_lt' (Nat.lt_of_le_of_lt hl (by decide))).symm
  exact ((Reads.readU8 _).failingAs _).bind
    (((Reads.readExact hc).failingAs _).bind_end ((Reads.give h).bind_nil Reads.pure))

lemma reads_record (h : record.validate = .ok ()) : Reads readRecord (recordBytes record) record := by
  have hl := length_of_validate h
  have hc : (UInt16.ofNat record.value.length).toNat = record.value.length :=
    UInt16.toNat_ofNat_of_lt' (Nat.lt_of_le_of_lt hl (by decide))
  have hr := Reads.readU16 (UInt16.ofNat record.value.length)
  rw [u16Bytes,hc] at hr
  exact ((Reads.readU8 _).failingAs _).bind ((hr.failingAs _).bind
    (((Reads.readExact hc.symm).failingAs _).bind_end ((Reads.give h).bind_nil Reads.pure)))

/-- What `decode` checks of a lease. -/
structure Lease.Valid (lease : Lease) : Prop where
  name : validateName lease.name = .ok ()
  owner : lease.owner ≠ Fixed.fill 32 0
  issued : lease.issued ≠ 0
  expires : lease.issued < lease.expires
  record : lease.record.validate = .ok ()

lemma Lease.encode_of (h : lease.Valid) : lease.encode = .ok lease.pieces.flatten := by
  have hn := length_of_validateName h.name
  have hr := length_of_validate h.record
  have hm : (ascii "ALDNSL01").length = 8 := by decide
  rw [encode,ensure_of (by omega),ok_bind,ensure_of (by omega),ok_bind]
  refine foldlM_append ?_
  simp [pieces,hm,lease.owner.2,maxLease]
  omega

lemma Lease.decode_of (h : lease.Valid) : Lease.decode lease.pieces.flatten = .ok lease := by
  have hr : lease.pieces.flatten = ascii "ALDNSL01" ++ (nameBytes lease.name ++ (lease.owner.1 ++
      (u64Bytes lease.issued ++ (u64Bytes lease.expires ++ (recordBytes lease.record ++ []))))) := by
    simp [pieces,nameBytes,recordBytes]
  have hre : Lease.read.run lease.pieces.flatten = .ok (lease,[]) := by
    rw [hr,Lease.read,(reads_magic _).run_bind,(reads_name h.name).run_bind,
      ((Reads.readFixed lease.owner).failingAs _).run_bind,(reads_number _).run_bind,
      (reads_number _).run_bind,(reads_record h.record).run_bind]
    have hc : lease.owner ≠ Fixed.fill 32 0 ∧ lease.issued ≠ 0 ∧ lease.issued < lease.expires :=
      ⟨h.owner,h.issued,h.expires⟩
    exact Reads.run_check (e := RegistryError.encoding) hc (fun _ => pure lease) []
  rw [decode,hre]
  rfl

namespace RegistryCall

variable {call : RegistryCall}

def actionBytes : RegistryAction → Bytes
  | .register duration record => u64Bytes duration ++ recordBytes record
  | .update record => recordBytes record
  | .renew duration => u64Bytes duration
  | .transfer owner => owner.1
  | .release => []

def raw (call : RegistryCall) : Bytes :=
  ascii "ALDNSC01" ++ ([(fields call.action).1] ++ (nameBytes call.name ++ actionBytes call.action))

/-- What `decode` checks of a call. -/
structure Valid (call : RegistryCall) : Prop where
  name : validateName call.name = .ok ()
  record : ∀ record ∈ (fields call.action).2.2.2, record.validate = .ok ()

lemma encodeRecord_of (h : record.validate = .ok ()) (hr : out.length + 259 ≤ maxCall) :
    encodeRecord out (some record) = .ok (out ++ recordBytes record) := by
  have hl := length_of_validate h
  rw [encodeRecord,h,ok_bind,append_of (by simp; omega),ok_bind,ensure_of (by omega),ok_bind,
    foldlM_append (by simp; omega)]
  simp [recordBytes]

lemma raw_length (h : call.Valid) : call.raw.length ≤ maxCall := by
  have hm : (ascii "ALDNSC01").length = 8 := by decide
  have hr := fun record hme => length_of_validate (h.record record hme)
  obtain ⟨name,action⟩ := call
  have hn : name.length ≤ 63 := length_of_validateName h.name
  cases action with
  | register duration record | update record =>
    have hl := hr record rfl
    simp [raw,hm,nameBytes,actionBytes,recordBytes,maxCall]
    omega
  | renew duration | transfer owner | release =>
    simp [raw,hm,nameBytes,actionBytes,maxCall]
    omega

lemma encode_of (h : call.Valid) : call.encode = .ok call.raw := by
  have hm : (ascii "ALDNSC01").length = 8 := by decide
  obtain ⟨name,action⟩ := call
  have hn : name.length ≤ 63 := length_of_validateName h.name
  rw [encode,h.name,ok_bind]
  simp only [append_of (show ([] : Bytes).length + (ascii "ALDNSC01").length ≤ maxCall by decide),ok_bind,
    ensure_of (show name.length < 2 ^ 8 by omega),nil_append]
  cases action with
  | register duration record | update record =>
    rw [foldlM_append (by simp [fields,hm,maxCall]; omega),ok_bind]
    refine (encodeRecord_of (h.record record rfl) (by simp [fields,hm,maxCall]; omega)).trans ?_
    simp [raw,fields,nameBytes,actionBytes]
  | renew duration | transfer owner | release =>
    rw [foldlM_append (by simp [fields,hm,maxCall]; omega),ok_bind]
    simp [raw,fields,nameBytes,actionBytes,encodeRecord]

lemma reads_action {action : RegistryAction}
    (h : ∀ record ∈ (fields action).2.2.2, record.validate = .ok ()) :
    Reads (readAction (fields action).1) (actionBytes action) action := by
  cases action with
  | register duration record => exact (reads_number duration).bind (reads_record (h record rfl)).bind_pure
  | update record => exact (reads_record (h record rfl)).bind_pure
  | renew duration => exact (reads_number duration).bind_pure
  | transfer owner => exact ((Reads.readFixed owner).failingAs _).bind_pure
  | release => exact Reads.pure

lemma decode_of (h : call.Valid) : RegistryCall.decode call.raw = .ok call := by
  have hr : RegistryCall.read.run call.raw = .ok (call,[]) := by
    rw [raw,RegistryCall.read,(reads_magic _).run_bind,((Reads.readU8 _).failingAs _).run_bind,
      (reads_name h.name).run_bind,← append_nil (actionBytes _),(reads_action h.record).run_bind]
    rfl
  rw [decode,ensure_of (raw_length h),ok_bind,hr]
  rfl

end RegistryCall

variable {call : RegistryCall} {caller : Fixed 32} {height duration e : UInt64} {live next : Option Lease}

lemma expiry_ok (h : expiry height duration = .ok e) :
    e.toNat ≤ height.toNat + maxDuration ∧ height < e := by
  simp only [expiry,bind_eq_ok,ensure_eq_ok,pure_ok_iff] at h
  obtain ⟨_,⟨hz,hd⟩,_,hf,rfl⟩ := h
  have ha : (height + duration).toNat = height.toNat + duration.toNat := by
    rw [UInt64.toNat_add,Nat.mod_eq_of_lt hf]
  have hp : duration.toNat ≠ 0 := fun h => hz (UInt64.toNat_inj.mp h)
  rw [UInt64.lt_iff_toNat_lt,ha]
  omega

/-- What a call at `height` may store where `live` was. -/
structure Lease.Sets (height : UInt64) (live : Option Lease) (lease : Lease) : Prop where
  valid : lease.Valid
  issued : lease.issued = height ∨ ∃ old ∈ live, lease.issued = old.issued
  expires : lease.expires.toNat ≤ height.toNat + maxDuration ∨ ∃ old ∈ live, lease.expires = old.expires

lemma Lease.amend_ok {action : RegistryAction} (hle : lease.Valid)
    (h : lease.amend height action = .ok next) :
    ∀ l ∈ next, l.Sets height (some lease) ∧ l.name = lease.name := by
  rintro l hl
  cases action with
  | register duration record => cases h
  | update record =>
    simp only [amend,bind_eq_ok,pure_ok_iff] at h
    obtain ⟨_,hr,rfl⟩ := h
    cases hl
    exact ⟨⟨{ hle with record := hr },.inr ⟨_,rfl,rfl⟩,.inr ⟨_,rfl,rfl⟩⟩,rfl⟩
  | renew duration =>
    simp only [amend,bind_eq_ok,ensure_eq_ok,pure_ok_iff] at h
    obtain ⟨expires,he,_,hb,rfl⟩ := h
    cases hl
    have hla := (expiry_ok he).2
    refine ⟨⟨{ hle with expires := UInt64.lt_trans hle.expires hla },.inr ⟨_,rfl,rfl⟩,.inl ?_⟩,rfl⟩
    simp only
    omega
  | transfer owner =>
    simp only [amend,bind_eq_ok,ensure_eq_ok,pure_ok_iff] at h
    obtain ⟨_,ho,rfl⟩ := h
    cases hl
    exact ⟨⟨{ hle with owner := ho },.inr ⟨_,rfl,rfl⟩,.inr ⟨_,rfl,rfl⟩⟩,rfl⟩
  | release =>
    cases h
    cases hl

/-- A live lease makes way only for a call of its owner under its name. -/
lemma nextLease_ok (hli : ∀ l ∈ live, l.Valid) (hn : validateName call.name = .ok ())
    (hc : caller ≠ Fixed.fill 32 0 ∧ height ≠ 0) (h : nextLease call live caller height = .ok next) :
    (∀ l ∈ next, l.Sets height live ∧ l.name = call.name) ∧
      ∀ l ∈ live, l.owner = caller ∧ l.name = call.name := by
  unfold nextLease at h
  split at h
  · simp only [bind_eq_ok,ensure_eq_ok,pure_ok_iff] at h
    obtain ⟨_,rfl,_,hr,expires,he,rfl⟩ := h
    refine ⟨?_,by rintro l hl; cases hl⟩
    rintro l hl
    cases hl
    obtain ⟨hb,hla⟩ := expiry_ok he
    exact ⟨⟨⟨hn,hc.1,hc.2,hla,hr⟩,.inl rfl,.inl hb⟩,rfl⟩
  · simp only [bind_eq_ok,okOr_eq_ok,ensure_eq_ok,Option.filter_eq_some_iff,decide_eq_true_eq] at h
    obtain ⟨lease,⟨rfl,hs⟩,_,ho,ha⟩ := h
    refine ⟨fun l hl => ?_,?_⟩
    · obtain ⟨hse,hl⟩ := Lease.amend_ok (hli lease rfl) ha l hl
      exact ⟨hse,hl.trans hs⟩
    · rintro l hl
      cases hl
      exact ⟨ho,hs⟩

namespace Registry

variable {s : Registry} {r : Request} {key : Bytes}

/-- What is stored is an encoded lease, under the key of its name. -/
def Sound (s : Registry) : Prop :=
  ∀ key bytes, s.store key = some bytes → ∃ lease : Lease, lease.Valid ∧ bytes = lease.pieces.flatten ∧
    registryKey lease.name = .ok key ∧ lease.issued ≤ s.height

lemma Sound.holds (hs : s.Sound) (h : s.Holds key lease) :
    lease.Valid ∧ s.store key = some lease.pieces.flatten ∧ registryKey lease.name = .ok key ∧
      lease.issued ≤ s.height := by
  obtain ⟨bs,hb,hd⟩ := h
  obtain ⟨fd,hv,rfl,hk,hi⟩ := hs key bs hb
  rw [Lease.decode_of hv] at hd
  cases hd
  exact ⟨hv,hb,hk,hi⟩

lemma Sound.answer_ok {res : Option Bytes} (hs : s.Sound) (h : s.answer r = .ok (key,res)) :
    registryKey r.call.name = .ok key ∧ ∃ next : Option Lease, res = next.map (·.pieces.flatten) ∧
      ∃ live : Option Lease, (∀ l ∈ live, s.Holds key l) ∧
        (∀ l ∈ next, l.Sets r.height live ∧ l.name = r.call.name) ∧
        ∀ l, s.Holds key l → r.height < l.expires → l.owner = r.caller ∧ l.name = r.call.name := by
  simp only [answer,bind_eq_ok,pure_ok_iff,Prod.mk.injEq] at h
  obtain ⟨key,hk,res,ht,rfl,rfl⟩ := h
  simp only [transition,bind_eq_ok,ensure_eq_ok] at ht
  obtain ⟨_,hn,_,hc,prev,hd,next,hne,he⟩ := ht
  have hh : ∀ l, s.Holds key l ↔ prev = some l := by
    intro l
    unfold Holds
    cases hst : s.store key with
    | none =>
      rw [hst] at hd
      cases hd
      simp
    | some bs =>
      simp only [hst,decodeAll,bind_eq_ok,pure_ok_iff] at hd
      obtain ⟨fd,hf,rfl⟩ := hd
      simp [hf]
  have hli : ∀ l ∈ prev.filter (r.height < ·.expires), s.Holds key l :=
    fun l hl => (hh l).mpr (Option.filter_eq_some_iff.mp hl).1
  obtain ⟨hse,ho⟩ := nextLease_ok (fun l hl => (hs.holds (hli l hl)).1) hn hc hne
  refine ⟨hk,next,?_,_,hli,hse,fun l hl hex => ho l ?_⟩
  · cases next with
    | none =>
      cases he
      rfl
    | some lease =>
      rw [encodeAll,Lease.encode_of (hse lease rfl).1.valid] at he
      cases he
      rfl
  · exact Option.filter_eq_some_iff.mpr ⟨(hh l).mp hl,by simpa using hex⟩

lemma Sound.step_cases (hs : s.Sound) {bs : Bytes} (h : (s.step r).store key = some bs) :
    s.store key = some bs ∨ ∃ (lease : Lease) (live : Option Lease), bs = lease.pieces.flatten ∧ (∀ l ∈ live, s.Holds key l) ∧
        lease.Sets r.height live ∧ registryKey lease.name = .ok key := by
  unfold step at h
  split at h
  · next key' res ha =>
    change update s.store key' res key = some bs at h
    obtain ⟨hk,next,rfl,live,hli,hse,-⟩ := hs.answer_ok ha
    by_cases hsa : key = key'
    · subst hsa
      rw [update_self,Option.map_eq_some_iff] at h
      obtain ⟨lease,hl,rfl⟩ := h
      obtain ⟨hse,hn⟩ := hse lease hl
      exact .inr ⟨lease,live,rfl,hli,hse,hn ▸ hk⟩
    · rw [update_of_ne hsa] at h
      exact .inl h
  · exact .inl h

lemma step_height (s : Registry) (r : Request) : (s.step r).height = r.height := by
  unfold step
  split <;> rfl

lemma Sound.step (hs : s.Sound) (hr : s.Follows r) : (s.step r).Sound := by
  intro key bs h
  rw [step_height]
  rcases hs.step_cases h with h | ⟨lease,live,rfl,hl,hse,hk⟩
  · obtain ⟨lease,hv,hb,hk,hi⟩ := hs key bs h
    exact ⟨lease,hv,hb,hk,UInt64.le_trans hi hr.2⟩
  · refine ⟨lease,hse.valid,rfl,hk,?_⟩
    rcases hse.issued with hi | ⟨old,ho,hi⟩
    · rw [hi]
      exact UInt64.le_refl _
    · rw [hi]
      exact UInt64.le_trans (hs.holds (hl old ho)).2.2.2 hr.2

lemma sound_of_reached (h : s.Reached) : s.Sound :=
  Reachable.invariant (fun s he key bs hb => by rw [he] at hb; cases hb)
    (fun _ _ hr hs => hs.step hr) h

variable {key' : Bytes} {lease' : Lease}

lemma Sound.unique (hs : s.Sound) (h : s.Holds key lease) (h' : s.Holds key' lease')
    (hsa : lease.name.map skeleton = lease'.name.map skeleton) : key = key' ∧ lease = lease' := by
  have hk := (registryKey_eq_ok.mp (hs.holds h).2.2.1).2
  have hk' := (registryKey_eq_ok.mp (hs.holds h').2.2.1).2
  obtain rfl : key = key' := by rw [hk,hk',hsa]
  obtain ⟨bs,hb,hd⟩ := h
  obtain ⟨bytes',hb',hd'⟩ := h'
  rw [hb] at hb'
  cases hb'
  rw [hd] at hd'
  exact ⟨rfl,Except.ok.inj hd'⟩

lemma Sound.kept (hs : s.Sound) (h : s.Holds key lease) (he : r.height < lease.expires) :
    (s.step r).Holds key lease ∨ r.caller = lease.owner ∧ r.call.name = lease.name := by
  unfold Registry.step
  split
  · next key' res ha =>
    by_cases hsa : key = key'
    · subst hsa
      obtain ⟨-,-,-,-,-,-,ho⟩ := hs.answer_ok ha
      obtain ⟨ho,hn⟩ := ho lease h he
      exact .inr ⟨ho.symm,hn.symm⟩
    · obtain ⟨bs,hb,hd⟩ := h
      exact .inl ⟨bs,(update_of_ne hsa _ _).trans hb,hd⟩
  · exact .inl h

lemma Sound.expires (hs : s.Sound) (h : (s.step r).Holds key lease) :
    lease.expires.toNat ≤ r.height.toNat + maxDuration ∨
      ∃ old, s.Holds key old ∧ old.expires = lease.expires := by
  obtain ⟨bs,hby,hd⟩ := h
  rcases hs.step_cases hby with hby | ⟨fd,live,rfl,hl,hse,-⟩
  · exact .inr ⟨lease,⟨bs,hby,hd⟩,rfl⟩
  · rw [Lease.decode_of hse.valid] at hd
    cases hd
    rcases hse.expires with hb | ⟨old,ho,he⟩
    · exact .inl hb
    · exact .inr ⟨old,hl old ho,he.symm⟩

end Registry

open Registry in
/-- Names are owned over any run of calls, and calls and leases are read back as written. -/
theorem registry_names_owned :
    (∀ s : Registry, s.Reached →
      (∀ key bytes, s.store key = some bytes → ∃ lease, Lease.decode bytes = .ok lease ∧
        registryKey lease.name = .ok key ∧ lease.issued ≤ s.height ∧
        ∀ other ∈ reserved, lease.name.map skeleton ≠ other.map skeleton) ∧
      (∀ key key' lease lease', s.Holds key lease → s.Holds key' lease' →
        lease.name.map skeleton = lease'.name.map skeleton → key = key' ∧ lease = lease') ∧
      ∀ r, s.Follows r →
        (∀ key lease, s.Holds key lease → r.height < lease.expires →
          (s.step r).Holds key lease ∨ r.caller = lease.owner ∧ r.call.name = lease.name) ∧
        (∀ key lease, (s.step r).Holds key lease → lease.expires.toNat ≤ r.height.toNat + maxDuration ∨
          ∃ old, s.Holds key old ∧ old.expires = lease.expires) ∧
        ∀ e, s.answer r = .error e → (s.step r).store = s.store) ∧
    (∀ call : RegistryCall, call.Valid →
      ∃ bytes, call.encode = .ok bytes ∧ RegistryCall.decode bytes = .ok call) ∧
    ∀ lease : Lease, lease.Valid → ∃ bytes, lease.encode = .ok bytes ∧ Lease.decode bytes = .ok lease := by
  refine ⟨fun s hr => ?_,fun call h => ⟨_,RegistryCall.encode_of h,RegistryCall.decode_of h⟩,
    fun lease h => ⟨_,Lease.encode_of h,Lease.decode_of h⟩⟩
  have hs := sound_of_reached hr
  refine ⟨fun key bytes h => ?_,fun _ _ _ _ => hs.unique,fun r _ =>
    ⟨fun _ _ => hs.kept,fun _ _ => hs.expires,fun e he => by rw [Registry.step,he]⟩⟩
  obtain ⟨lease,hv,rfl,hk,hi⟩ := hs key bytes h
  exact ⟨lease,Lease.decode_of hv,hk,hi,fun other => not_reserved_of_validateName hv.name⟩

end Astrolune.Contract
