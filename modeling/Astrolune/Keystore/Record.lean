import Mathlib.Data.Prod.Lex
import Astrolune.Types.Hash

namespace Astrolune.Keystore
open Lib Codec Decoder

structure SigningContext where
  chainId : UInt32
  genesis : Hash256
  deriving DecidableEq

structure SigningLock where
  round : UInt32
  block : Hash256
  deriving DecidableEq

structure SigningSafety where
  committeeRoot : Hash256
  locked : Option SigningLock
  deriving DecidableEq

@[ext] structure SigningPosition where
  height : UInt64
  round : UInt32
  phase : UInt8
  deriving DecidableEq

inductive KeystoreError where
  | invalidSafety
  | locked
  | alreadyExists
  | invalidJournal
  | contextMismatch
  | invalidPosition
  | stalePosition
  | limitExceeded
  | durabilityUnknown
  | unknownKey
  | wrongPurpose
  | conflictingSign
  | journalFailure
  | providerFailure
  deriving DecidableEq, Repr

def proposalPhase : UInt8 := 0
def prevotePhase : UInt8 := 1
def precommitPhase : UInt8 := 2

namespace SigningPosition

/-- The derived `Ord`: height, then round, then phase. -/
def key (p : SigningPosition) : ℕ ×ₗ ℕ ×ₗ ℕ :=
  toLex (p.height.toNat, toLex (p.round.toNat, p.phase.toNat))

lemma key_injective : Function.Injective key := by
  intro p q h
  simp only [key,EmbeddingLike.apply_eq_iff_eq,Prod.mk.injEq] at h
  exact SigningPosition.ext (UInt64.toNat_inj.mp h.1) (UInt32.toNat_inj.mp h.2.1)
    (UInt8.toNat_inj.mp h.2.2)

instance : LinearOrder SigningPosition := LinearOrder.lift' key key_injective

lemma lt_iff {p q : SigningPosition} : p < q ↔ p.height < q.height ∨
    p.height = q.height ∧ (p.round < q.round ∨ p.round = q.round ∧ p.phase < q.phase) := by
  change key p < key q ↔ _
  simp only [key,Prod.Lex.toLex_lt_toLex,UInt64.lt_iff_toNat_lt,UInt32.lt_iff_toNat_lt,
    UInt8.lt_iff_toNat_lt,UInt64.toNat_inj,UInt32.toNat_inj]

end SigningPosition

/-- The lock and root `validate_safety` demands of a later decision at one height. -/
structure SigningSafety.Follows (old new : SigningSafety) : Prop where
  root : old.committeeRoot = new.committeeRoot
  lock : ∀ locked ∈ old.locked, ∃ next ∈ new.locked, locked.round < next.round ∨ next = locked

lemma SigningSafety.Follows.refl (s : SigningSafety) : s.Follows s :=
  ⟨rfl,fun locked h => ⟨locked,h,.inr rfl⟩⟩

lemma SigningSafety.Follows.trans {a b c : SigningSafety} (ha : a.Follows b)
    (hb : b.Follows c) : a.Follows c := by
  refine ⟨ha.root.trans hb.root,fun locked hl => ?_⟩
  obtain ⟨mid,hm,hlm⟩ := ha.lock locked hl
  obtain ⟨next,hn,hmn⟩ := hb.lock mid hm
  refine ⟨next,hn,?_⟩
  rcases hlm with hlt | rfl
  · rcases hmn with hl' | rfl
    · exact .inl (UInt32.lt_trans hlt hl')
    · exact .inl hlt
  · exact hmn

def validateSafety (position : SigningPosition) (safety : SigningSafety)
    (previous : Option (SigningPosition × SigningSafety)) : Except KeystoreError Unit :=
  if safety.committeeRoot = Hash256.zero ∨
      safety.locked.any (fun lock => position.round < lock.round) then
    .error .invalidSafety
  else match previous with
    | none => .ok ()
    | some (oldPosition, old) =>
      if oldPosition.height = position.height then
        if old.committeeRoot ≠ safety.committeeRoot then .error .invalidSafety
        else match old.locked with
          | none => .ok ()
          | some locked =>
            if safety.locked.any (fun next => locked.round < next.round ∨ next = locked) then .ok ()
            else .error .invalidSafety
      else .ok ()

/-- `validate_safety` of a decision that carries a safety record. -/
def validateNext (position : SigningPosition) (safety : Option SigningSafety)
    (previous : Option (SigningPosition × SigningSafety)) : Except KeystoreError Unit :=
  match safety with
  | some next => validateSafety position next previous
  | none => .ok ()

structure SigningSafety.WellFormed (safety : SigningSafety) (position : SigningPosition) :
    Prop where
  root : safety.committeeRoot ≠ Hash256.zero
  lock : ∀ lock ∈ safety.locked, lock.round ≤ position.round

variable {a b c : Decision} {pos : SigningPosition}

lemma SigningSafety.wellFormed_iff {sf : SigningSafety} :
    sf.WellFormed pos ↔ ¬(sf.committeeRoot = Hash256.zero ∨
      sf.locked.any (fun lock => pos.round < lock.round)) := by
  rcases sf with ⟨root,_ | lock⟩
  · exact ⟨fun h => by simpa using h.root,fun h => ⟨by simpa using h,by simp⟩⟩
  · simp only [Option.any_some,decide_eq_true_eq,not_or,UInt32.not_lt]
    exact ⟨fun h => ⟨h.root,h.lock lock rfl⟩,fun h => ⟨h.1,by simpa using h.2⟩⟩

lemma SigningSafety.follows_iff {old new : SigningSafety} :
    old.Follows new ↔ old.committeeRoot = new.committeeRoot ∧ old.locked.all (fun locked =>
      new.locked.any (fun next => locked.round < next.round ∨ next = locked)) := by
  constructor
  · rintro ⟨hr,hl⟩
    refine ⟨hr,?_⟩
    cases ho : old.locked with
    | none => rfl
    | some locked =>
      obtain ⟨next,hm,hn⟩ := hl locked ho
      simp [Option.mem_def.mp hm,hn]
  · rintro ⟨hr,hl⟩
    refine ⟨hr,fun locked hm => ?_⟩
    rw [Option.mem_def.mp hm] at hl
    obtain ⟨next,hn,hc⟩ := (Option.any_eq_true _ _).mp hl
    exact ⟨next,hn,of_decide_eq_true hc⟩

lemma validateSafety_ok {position safety prev} :
    validateSafety position safety prev = .ok () ↔ safety.WellFormed position ∧
      ∀ old ∈ prev, old.1.height = position.height → old.2.Follows safety := by
  rw [SigningSafety.wellFormed_iff]
  unfold validateSafety
  split
  · simp_all
  · rename_i hf
    simp only [hf,not_false_eq_true,true_and]
    rcases prev with _ | ⟨oldPosition,old⟩
    · simp
    · simp only [Option.mem_some_iff,forall_eq',SigningSafety.follows_iff]
      by_cases hh : oldPosition.height = position.height
      · by_cases hr : old.committeeRoot = safety.committeeRoot
        · rcases hl : old.locked with _ | locked
          · simp [hh,hr]
          · simp only [hh,hr,ne_eq,not_true_eq_false,if_true,if_false,Option.all_some, true_and,forall_const]
            split <;> simp_all
        · simp [hh,hr]
      · simp [hh]

structure Decision where
  position : SigningPosition
  message : Hash256
  safety : Option SigningSafety
  deriving DecidableEq

/-- `b` may be recorded after `a`: it is strictly later, and keeps `a`'s committee and lock. -/
structure Decision.Precedes (a b : Decision) : Prop where
  position : a.position < b.position
  safety : a.position.height = b.position.height →
    ∀ old ∈ a.safety, ∃ new ∈ b.safety, old.Follows new

lemma SigningPosition.height_le {p q : SigningPosition} (h : p < q) : p.height ≤ q.height := by
  rcases lt_iff.mp h with h | h
  · exact UInt64.le_of_lt h
  · exact h.1 ▸ UInt64.le_refl _

lemma Decision.Precedes.trans (ha : a.Precedes b) (hbc : b.Precedes c) : a.Precedes c := by
  refine ⟨ha.position.trans hbc.position,fun hh old ho => ?_⟩
  have hl := SigningPosition.height_le ha.position
  have hl' := SigningPosition.height_le hbc.position
  have hb : a.position.height = b.position.height := UInt64.le_antisymm hl (hh ▸ hl')
  obtain ⟨mid,hm,hf⟩ := ha.safety hb old ho
  obtain ⟨new,hn,hf'⟩ := hbc.safety (hb ▸ hh) mid hm
  exact ⟨new,hn,hf.trans hf'⟩

def Decision.Extends (a b : Decision) : Prop := a = b ∨ a.Precedes b

lemma Decision.Extends.trans (ha : a.Extends b) (hb : b.Extends c) : a.Extends c := by
  rcases ha with rfl | ha
  · exact hb
  · rcases hb with rfl | hb
    · exact .inr ha
    · exact .inr (ha.trans hb)

lemma Decision.precedes_of_validate {sf : SigningSafety}
    {old : Decision} {msg : Hash256} (hp : old.position < pos)
    (hv : validateSafety pos sf (old.safety.map fun s => (old.position,s)) = .ok ()) :
    old.Precedes ⟨pos,msg,some sf⟩ := by
  refine ⟨hp,fun hh s hs => ⟨sf,rfl,?_⟩⟩
  exact (validateSafety_ok.mp hv).2 (old.position,s) (by simp [Option.mem_def.mp hs]) hh

def recordBytes : Nat := 85
def protectedRecordBytes : Nat := 154

def recordSize (isProtected : Bool) : Nat :=
  if isProtected then protectedRecordBytes else recordBytes

def SigningPosition.bytes (p : SigningPosition) : Bytes :=
  u64Bytes p.height ++ (u32Bytes p.round ++ [p.phase])

def SigningSafety.bytes (s : SigningSafety) : Bytes :=
  let locked := s.locked.getD ⟨0, Hash256.zero⟩
  s.committeeRoot.1 ++ ([if s.locked.isSome then 1 else 0] ++ (u32Bytes locked.round ++ locked.block.1))

def recordBody (sequence : Nat) (position : SigningPosition) (message : Hash256) : Bytes :=
  leBytes 8 sequence ++ (position.bytes ++ message.1)

@[simp] lemma SigningPosition.bytes_length (p : SigningPosition) : p.bytes.length = 13 := by
  simp [SigningPosition.bytes]

@[simp] lemma SigningSafety.bytes_length (s : SigningSafety) : s.bytes.length = 69 := by
  simp [SigningSafety.bytes,s.committeeRoot.2,(s.locked.getD ⟨0,Hash256.zero⟩).block.2]

@[simp] lemma recordBody_length (seq : Nat) (pos : SigningPosition)
    (msg : Hash256) : (recordBody seq pos msg).length = 53 := by
  simp [recordBody,msg.2]

section
variable (H : Hasher)

def recordHash (tip : Hash256) (body : Bytes) : Hash256 :=
  domainHash H (ascii "astrolune.signing.decision.v1") (tip.1 ++ body)

def record (sequence : Nat) (position : SigningPosition) (message tip : Hash256) : Bytes :=
  let body := recordBody sequence position message
  body ++ (recordHash H tip body).1

def protectedRecord (sequence : Nat) (position : SigningPosition) (message tip : Hash256)
    (safety : SigningSafety) : Bytes :=
  let body := recordBody sequence position message ++ safety.bytes
  body ++ (recordHash H tip body).1

/-- The layout `reserve_entry` picks by whether the decision carries a safety record. -/
def entryBytes (sequence : Nat) (position : SigningPosition) (message tip : Hash256) :
    Option SigningSafety → Bytes
  | some safety => protectedRecord H sequence position message tip safety
  | none => record H sequence position message tip

end

def readPosition : Decoder SigningPosition := do
  let height ← readU64
  let round ← readU32
  let phase ← readU8
  return ⟨height, round, phase⟩

def readSafety : Decoder SigningSafety := do
  let committeeRoot ← readFixed 32
  let flag ← readU8
  let round ← readU32
  let block ← readFixed 32
  if flag = 0 ∧ round = 0 ∧ block = Hash256.zero then return ⟨committeeRoot, none⟩
  else if flag = 1 then return ⟨committeeRoot, some ⟨round, block⟩⟩
  else throw .nonCanonical

structure DecodedEntry where
  position : SigningPosition
  message : Hash256
  checksum : Hash256
  safety : Option SigningSafety
  deriving DecidableEq

def readSafetyIf (isProtected : Bool) : Decoder (Option SigningSafety) :=
  if isProtected then some <$> readSafety else pure none

def readEntry (isProtected : Bool) : Decoder (Nat × DecodedEntry) := do
  let sequence ← readU64
  let position ← readPosition
  let message ← readFixed 32
  let safety ← readSafetyIf isProtected
  let checksum ← readFixed 32
  finish
  return (sequence.toNat, ⟨position, message, checksum, safety⟩)

def decodeEntry (H : Hasher) (bytes : Bytes) (sequence : Nat) (tip : Hash256)
    (isProtected : Bool) : Except KeystoreError DecodedEntry := do
  let ((parsed, entry), _) ← failAs .invalidJournal ((readEntry isProtected).run bytes)
  ensure .invalidJournal (parsed = sequence ∧ entry.position.phase ≤ precommitPhase ∧
    entry.checksum = recordHash H tip (bytes.take (bytes.length - 32)))
  return entry

lemma run_readPosition (p : SigningPosition) (rest : Bytes) :
    readPosition.run (p.bytes ++ rest) = .ok (p,rest) := by
  simp [readPosition,SigningPosition.bytes,StateT.run_bind]

lemma run_readSafety (s : SigningSafety) (rest : Bytes) :
    readSafety.run (s.bytes ++ rest) = .ok (s,rest) := by
  rcases s with ⟨root,_ | lock⟩ <;> simp [readSafety,SigningSafety.bytes,StateT.run_bind]

def entryBody (sequence : Nat) (position : SigningPosition) (message : Hash256)
    (safety : Option SigningSafety) : Bytes :=
  recordBody sequence position message ++ (safety.map SigningSafety.bytes).getD []

lemma entryBytes_eq (H : Hasher) (seq : Nat) (pos : SigningPosition)
    (msg tip : Hash256) (sf : Option SigningSafety) :
    entryBytes H seq pos msg tip sf = entryBody seq pos msg sf ++
        (recordHash H tip (entryBody seq pos msg sf)).1 := by
  cases sf <;> simp [entryBytes,entryBody,record,protectedRecord]

lemma take_checksummed (body : Bytes) (checksum : Hash256) :
    (body ++ checksum.1).take ((body ++ checksum.1).length - 32) = body := by
  simp [checksum.2]

lemma entryBytes_take (H : Hasher) (seq : Nat) (pos : SigningPosition)
    (msg tip : Hash256) (sf : Option SigningSafety) :
    let bytes := entryBytes H seq pos msg tip sf
    bytes.take (bytes.length - 32) = entryBody seq pos msg sf := by
  simp only [entryBytes_eq,take_checksummed]

lemma entryBytes_length (H : Hasher) (seq : Nat)
    (pos : SigningPosition) (msg tip : Hash256) (sf : Option SigningSafety) :
    (entryBytes H seq pos msg tip sf).length = recordSize sf.isSome := by
  rw [entryBytes_eq,List.length_append,(recordHash H tip _).2]
  cases sf <;> simp [entryBody,recordSize,recordBytes,protectedRecordBytes]

lemma run_readEntry {sequence : Nat} (pos : SigningPosition) (msg checksum : Hash256)
    (sf : Option SigningSafety) (hs : sequence < 2 ^ 64) :
    (readEntry sf.isSome).run (entryBody sequence pos msg sf ++ checksum.1) =
      .ok ((sequence,⟨pos,msg,checksum,sf⟩),[]) := by
  have hw : (UInt64.ofNat sequence).toNat = sequence := UInt64.toNat_ofNat_of_lt' hs
  cases sf <;> simp [readEntry,readSafetyIf,entryBody,recordBody,StateT.run_bind,
    run_readU64_digits,run_readPosition,run_readSafety,hw]

lemma decodeEntry_entryBytes (H : Hasher) {seq : Nat}
    {pos : SigningPosition} (msg tip : Hash256) (sf : Option SigningSafety)
    (hs : seq < 2 ^ 64) (hp : pos.phase ≤ precommitPhase) :
    decodeEntry H (entryBytes H seq pos msg tip sf) seq tip sf.isSome = .ok ⟨pos,msg,
        recordHash H tip (entryBody seq pos msg sf),sf⟩ := by
  unfold decodeEntry
  rw [entryBytes_take,entryBytes_eq,run_readEntry pos msg _ sf hs,failAs_ok, ok_bind]
  simp only [hp,and_self,ensure_of,ok_bind,pure_eq_ok]

end Astrolune.Keystore
