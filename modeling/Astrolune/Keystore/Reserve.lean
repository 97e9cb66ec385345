import Astrolune.Keystore.Leftover

namespace Astrolune.Keystore
open Lib Codec List

structure ReserveIo where
  readable : Bool
  activation : WriteOutcome
  entry : WriteOutcome

/-- How `reserve_entry` means to go on once its checks have passed. -/
inductive Admission where
  | repeated
  | fresh (sequence : Nat)

namespace Journal

def admitFresh (j : Journal) (position : SigningPosition) (safety : Option SigningSafety) :
    Except KeystoreError Admission := do
  ensure .limitExceeded (¬(j.isProtected = false ∧ j.count = maxJournalRecords))
  validateNext position safety j.guarded
  let sequence ← okOr .limitExceeded (checkedAdd64 j.count 1)
  return .fresh sequence

def admission (j : Journal) (position : SigningPosition) (message : Hash256)
    (safety : Option SigningSafety) : Except KeystoreError Admission :=
  match j.last with
  | none => j.admitFresh position safety
  | some (previous, digest) =>
    if position < previous then .error .stalePosition
    else if position = previous then
      if message = digest ∧ safety = j.safety then .ok .repeated else .error .conflictingSign
    else j.admitFresh position safety

section
variable (H : Hasher)

def activateRollover (j : Journal) (file : File) (io : WriteOutcome) :
    Journal × File × Except KeystoreError Unit :=
  if j.isProtected = false ∨ j.count ≠ maxJournalRecords ∨ j.rollover.isSome then
    (j, file, .error .invalidJournal)
  else match Rollover.new H j.tip j.last j.safety with
    | .error e => (j, file, .error e)
    | .ok r =>
      match file.write maxProtectedJournalBytes (r.encode H) io with
      | (file, false) => ({ j with poisoned := true }, file, .error .durabilityUnknown)
      | (file, true) => ({ j with rollover := some r }, file, .ok ())

def activateIf (j : Journal) (file : File) (io : WriteOutcome) :
    Journal × File × Except KeystoreError Unit :=
  if j.isProtected = true ∧ j.count = maxJournalRecords ∧ j.rollover.isNone then
    j.activateRollover H file io
  else (j, file, .ok ())

/-- The write that ends `reserve_entry`: a rollover slot, or one more record. -/
def commitEntry (j : Journal) (file : File) (io : WriteOutcome) (sequence : Nat)
    (position : SigningPosition) (message : Hash256) (safety : Option SigningSafety) :
    Journal × File × Except KeystoreError Unit :=
  match j.rollover with
  | some r =>
    match safety with
    | none => (j, file, .error .invalidSafety)
    | some held =>
      match r.prepare H sequence position message held with
      | .error e => (j, file, .error e)
      | .ok (slot, bytes) =>
        match file.write (Rollover.slotOffset slot) bytes io with
        | (file, false) => ({ j with poisoned := true }, file, .error .durabilityUnknown)
        | (file, true) =>
          ({ j with
              previous := some j.state, last := some (position, message), safety := some held
              rollover := some (r.publish slot ⟨sequence, position, message, held⟩)
              count := sequence }, file, .ok ())
  | none =>
    let bytes := entryBytes H sequence position message j.tip safety
    match file.write (journalHeaderBytes + j.count * recordSize safety.isSome) bytes io with
    | (file, false) => ({ j with poisoned := true }, file, .error .durabilityUnknown)
    | (file, true) =>
      ({ j with
          previous := some j.state, last := some (position, message), safety
          tip := recordHash H j.tip (bytes.take (bytes.length - 32))
          count := sequence }, file, .ok ())

def reserveEntry (j : Journal) (file : File) (io : ReserveIo) (position : SigningPosition)
    (message : Hash256) (safety : Option SigningSafety) :
    Journal × File × Except KeystoreError Unit :=
  if j.poisoned then (j, file, .error .durabilityUnknown)
  else if precommitPhase < position.phase then (j, file, .error .invalidPosition)
  else if j.isProtected ≠ safety.isSome then (j, file, .error .invalidSafety)
  -- an unreadable or unexpected file poisons the instance before anything is decided
  else if ¬(io.readable ∧ j.checkLength H file.visible = .ok ()) then
    ({ j with poisoned := true }, file, .error .invalidJournal)
  else match j.admission position message safety with
    | .error e => (j, file, .error e)
    | .ok .repeated => (j, file, .ok ())
    | .ok (.fresh sequence) =>
      match j.activateIf H file io.activation with
      | (j, file, .error e) => (j, file, .error e)
      | (j, file, .ok ()) =>
        j.commitEntry H file io.entry sequence position message safety

end
end Journal

section
variable {H : Hasher} {context : SigningContext} {publicKey : Fixed 32}
  {ct : Bytes} {j : Journal} {position : SigningPosition} {message : Hash256}
  {safety : Option SigningSafety} {sequence : Nat}

lemma Opens.unique {j' : Journal} (h : Opens H context publicKey ct j)
    (h' : Opens H context publicKey ct j') : j = j' :=
  Except.ok.inj ((openBytes_ok.mpr h).symm.trans (openBytes_ok.mpr h'))

lemma Rollover.Fits.sound {baseline : Watermark} {s : Fin 2} {w : Watermark}
    (h : Rollover.Fits baseline s w) (tip : Hash256) (prev : Option JournalState) :
    Chain.Sound true ⟨tip,some (w.position,w.message),prev,some w.safety⟩ := by
  refine ⟨rfl,by simpa using h.phase,?_⟩
  simp only [Option.mem_some_iff,forall_eq']
  exact (validateSafety_ok.mp h.safety).1

lemma Opens.sound (h : Opens H context publicKey ct j) : j.toChain.Sound j.isProtected := by
  cases h with
  | appending head length bound run => exact (replay_ok (origin_sound _) run).1
  | @rolled c r head length run extension written =>
    obtain ⟨_,_,_,_,_,_,hv⟩ := Rollover.decode_ok extension
    obtain ⟨s,hs⟩ : ∃ s, r.latest = r.slots s := by
      rcases hv.cases with ⟨ha,hl,_⟩ | ⟨s,hl,_⟩
      · exact ⟨0,hl.trans (ha 0).symm⟩
      · exact ⟨s,hl⟩
    have hso := (hv.fits s).sound c.tip
      ((Journal.ofChain c maxJournalRecords (journalIdentity H context publicKey true)
        true).withRollover r).previous
    rw [← hs] at hso
    exact hso

/-- The facts `reserve_entry` has checked about a decision it is about to record. -/
structure Journal.Admits (j : Journal) (sequence : Nat) (position : SigningPosition)
    (safety : Option SigningSafety) : Prop where
  mode : j.isProtected = safety.isSome
  phase : position.phase ≤ precommitPhase
  later : ∀ last ∈ j.last, last.1 < position
  follows : validateNext position safety j.guarded = .ok ()
  next : sequence = j.count + 1
  bounded : sequence < 2 ^ 64
  room : j.isProtected = false → j.count ≠ maxJournalRecords

lemma Journal.admitFresh_ok {a : Admission} (h : j.admitFresh position safety = .ok a) :
    (j.isProtected = false → j.count ≠ maxJournalRecords) ∧
      validateNext position safety j.guarded = .ok () ∧ a = .fresh (j.count + 1) ∧
      j.count + 1 < 2 ^ 64 := by
  obtain ⟨_,hl,h⟩ := bind_eq_ok.mp h
  obtain ⟨_,hv,h⟩ := bind_eq_ok.mp h
  obtain ⟨sequence,hs,h⟩ := bind_eq_ok.mp h
  cases h
  obtain ⟨rfl,hb⟩ := checkedAdd64_eq_some.mp (okOr_eq_ok.mp hs)
  exact ⟨fun hp hc => ensure_eq_ok.mp hl ⟨hp,hc⟩,hv,rfl,hb⟩

lemma Journal.admission_repeated (h : j.admission position message safety = .ok .repeated) :
    j.decision = some ⟨position,message,safety⟩ := by
  unfold admission at h
  split at h
  · obtain ⟨_,_,h,_⟩ := admitFresh_ok h
    cases h
  · rename_i previous digest hl
    split at h
    · cases h
    · split at h
      · split at h
        · rename_i hp hd
          simp [Chain.decision,hl,hp,hd.1,hd.2]
        · cases h
      · obtain ⟨_,_,h,_⟩ := admitFresh_ok h
        cases h

lemma Journal.admission_fresh (hm : j.isProtected = safety.isSome) (hp : position.phase ≤ precommitPhase)
    (h : j.admission position message safety = .ok (.fresh sequence)) :
    j.Admits sequence position safety := by
  have hf (hla : ∀ last ∈ j.last, last.1 < position)
      (h : j.admitFresh position safety = .ok (.fresh sequence)) :
      j.Admits sequence position safety := by
    obtain ⟨hr,hv,he,hb⟩ := admitFresh_ok h
    cases he
    exact ⟨hm,hp,hla,hv,rfl,hb,hr⟩
  unfold admission at h
  split at h
  · rename_i hl
    exact hf (by simp [hl]) h
  · rename_i previous digest hl
    split at h
    · cases h
    · rename_i hlt
      split at h
      · split at h <;> cases h
      · rename_i hn
        refine hf ?_ h
        simp only [hl,Option.mem_some_iff,forall_eq']
        exact lt_of_le_of_ne (not_lt.mp hlt) (Ne.symm hn)

lemma Journal.Admits.reaches (message : Hash256) (hs : j.toChain.Sound j.isProtected)
    (h : j.Admits sequence position safety) :
    Reaches j.decision (some ⟨position,message,safety⟩) := by
  intro d hd
  obtain ⟨⟨old,digest⟩,hl,rfl⟩ := Option.map_eq_some_iff.mp hd
  refine ⟨_,rfl,.inr ⟨h.later _ hl,fun hh he hhe => ?_⟩⟩
  have hhe : j.safety = some he := hhe
  have hp : j.isProtected = true := by
    have := hs.safety
    simpa [hhe,hl] using this.symm
  obtain ⟨next,rfl⟩ := Option.isSome_iff_exists.mp (h.mode.symm.trans hp)
  refine ⟨next,rfl,(validateSafety_ok.mp h.follows).2 (old,he) ?_ hh⟩
  simp [Chain.guarded,hl,hhe]

lemma opens_entry (message : Hash256) (h : Opens H context publicKey ct j) (hr : j.rollover = none)
    (ha : j.Admits sequence position safety) (hc : j.count ≠ maxJournalRecords) :
    Opens H context publicKey (ct ++ entryBytes H sequence position message j.tip safety)
      { j with
        previous := some j.state, last := some (position,message), safety
        tip := recordHash H j.tip (entryBody sequence position message safety)
        count := sequence } := by
  cases h with
  | rolled => simp [Journal.withRollover] at hr
  | @appending prot count c head length bound run =>
    obtain rfl : sequence = count + 1 := ha.next
    have hm : prot = safety.isSome := ha.mode
    have hl : ∀ last ∈ c.last, last.1 < position := ha.later
    have hf : validateNext position safety c.guarded = .ok () := ha.follows
    have hw : (entryBytes H (count + 1) position message c.tip safety).length =
        recordSize prot := by rw [entryBytes_length,hm]
    -- the new record is the only one the longer replay adds
    have hst : c.step H prot (count + 1) (entryBytes H (count + 1) position message c.tip safety) =
          .ok ⟨recordHash H c.tip (entryBody (count + 1) position message safety),
            some (position,message),some (c.stateAt count),safety⟩ := by
      rw [hm]
      simp only [Chain.step,decodeEntry_entryBytes H message c.tip safety ha.bounded ha.phase,
        ok_bind,hf,failAs_ok,ensure_of hl,pure_eq_ok,Nat.add_sub_cancel]
    have hd : (ct ++ entryBytes H (count + 1) position message c.tip safety).drop
        journalHeaderBytes = ct.drop journalHeaderBytes ++
          entryBytes H (count + 1) position message c.tip safety :=
      drop_append_of_le_length (by omega)
    have hle : (ct.drop journalHeaderBytes).length = count * recordSize prot := by
      rw [length_drop,length,Nat.add_sub_cancel_left]
    have hru : replay H prot (count + 1) 1 (originChain H context publicKey prot)
        ((ct ++ entryBytes H (count + 1) position message c.tip safety).drop journalHeaderBytes) =
          .ok ⟨recordHash H c.tip (entryBody (count + 1) position message safety),
            some (position,message),some (c.stateAt count),safety⟩ := by
      have hs : (ct.drop journalHeaderBytes ++ entryBytes H (count + 1) position message c.tip safety).take
            (count * recordSize prot) =
          (ct.drop journalHeaderBytes).take (count * recordSize prot) := by
        rw [take_append_of_le_length hle.ge]
      rw [hd,replay_add,replay_take 1 _ hs,run,ok_bind,drop_left' hle]
      simp only [replay,hw,le_refl,ensure_of,ok_bind,take_of_length_le, Nat.add_comm 1 count,hst]
    refine @Opens.appending _ _ _ _ prot (count + 1) _ ?_ ?_ ?_ hru
    · rw [take_append_of_le_length (by omega),head]
    · rw [length_append,length,entryBytes_length,← hm,Nat.succ_mul,Nat.add_assoc]
    · exact Nat.lt_of_le_of_ne bound hc

lemma appending_full {count : Nat} (h : count = maxJournalRecords) :
    journalHeaderBytes + count * recordSize true = maxProtectedJournalBytes := by
  rw [h,Nat.mul_comm]
  rfl

lemma opens_activation {r : Rollover} (h : Opens H context publicKey ct j)
    (hr : j.rollover = none) (hp : j.isProtected = true) (hc : j.count = maxJournalRecords)
    (hn : Rollover.new H j.tip j.last j.safety = .ok r) :
    Opens H context publicKey (ct ++ r.encode H)
      { j with rollover := some r } := by
  have hso := h.sound
  cases h with
  | rolled => simp [Journal.withRollover] at hr
  | @appending prot count c head length bound run =>
    obtain rfl : prot = true := hp
    obtain rfl : count = maxJournalRecords := hc
    have hso : c.Sound true := hso
    obtain ⟨⟨position,message⟩,hl,hn⟩ := bind_eq_ok.mp hn
    obtain ⟨he,hs,hn⟩ := bind_eq_ok.mp hn
    have hl : c.last = some (position,message) := okOr_eq_ok.mp hl
    have hs : c.safety = some he := okOr_eq_ok.mp hs
    cases hn
    have hle : ct.length = maxProtectedJournalBytes := length.trans (appending_full rfl)
    have hv : Rollover.Valid (domainHash H (ascii "astrolune.signing.rollover.v1") c.tip.1)
        ⟨maxJournalRecords,position,message,he⟩
        ⟨domainHash H (ascii "astrolune.signing.rollover.v1") c.tip.1,
          fun _ => ⟨maxJournalRecords,position,message,he⟩⟩ :=
      ⟨rfl,rfl,Rollover.baseline_sound hso hl hs,.inl ⟨rfl,rfl⟩⟩
    have hh : journalHeaderBytes ≤ ct.length := by omega
    generalize hq : (⟨domainHash H (ascii "astrolune.signing.rollover.v1") c.tip.1,
      fun _ => ⟨maxJournalRecords,position,message,he⟩⟩ : Rollover) = r at hv
    have hd := Rollover.decode_encode hv
    have hdr : (ct ++ r.encode H).drop maxProtectedJournalBytes = r.encode H := drop_left' hle
    have hru : replay H true maxJournalRecords 1 (originChain H context publicKey true)
        ((ct ++ r.encode H).drop journalHeaderBytes) = .ok c := by
      rw [drop_append_of_le_length hh,← run]
      apply replay_take
      rw [take_append_of_le_length]
      rw [length_drop,length,Nat.add_sub_cancel_left]
    have hop := Opens.rolled (r := r) (by rw [take_append_of_le_length hh,head])
      (by rw [length_append,hle,Rollover.encode_length]; rfl)
      hru (by rw [hdr,hl,hs]; exact hd) hdr
    have hla : r.latest = ⟨maxJournalRecords,position,message,he⟩ := by
      rw [← hq]
      simp [Rollover.latest]
    have ho : r.older = none := by
      rw [← hq]
      simp [Rollover.older]
    have hj : (Journal.ofChain c maxJournalRecords
        (journalIdentity H context publicKey true) true).withRollover r =
          { Journal.ofChain c maxJournalRecords
              (journalIdentity H context publicKey true) true with rollover := some r } := by
      simp only [Journal.withRollover,Journal.ofChain,hla,ho,← hl,← hs]
    rw [hj] at hop
    subst hq
    exact hop

lemma opens_publish {r : Rollover} {he : SigningSafety} {slot : Fin 2} {bs : Bytes}
    (h : Opens H context publicKey ct j) (hr : j.rollover = some r)
    (hp : position.phase ≤ precommitPhase)
    (hpr : r.prepare H sequence position message he = .ok (slot,bs)) :
    Opens H context publicKey (overwrite ct (Rollover.slotOffset slot) bs)
      { j with
        previous := some j.state, last := some (position,message), safety := some he
        rollover := some (r.publish slot ⟨sequence,position,message,he⟩)
        count := sequence } := by
  cases h with
  | appending => simp [Journal.ofChain] at hr
  | @rolled c r₀ head length run extension written =>
    obtain rfl : r₀ = r := by simpa [Journal.withRollover] using hr
    obtain ⟨rfl,rfl,hst⟩ := Rollover.prepare_ok hpr
    obtain ⟨basePosition,baseMessage,baseSafety,hl,hs,_,hv⟩ := Rollover.decode_ok extension
    obtain ⟨hv',hla,ho⟩ := hv.publish hst hp
    have hw : (r₀.encodeSlot H (Rollover.slot sequence)
        ⟨sequence,position,message,he⟩).length = protectedRecordBytes :=
      Rollover.encodeSlot_length _ _
    obtain ⟨hle,ht,_⟩ := slot_frame (s := Rollover.slot sequence) length hw.le
    have hd : (overwrite ct (Rollover.slotOffset (Rollover.slot sequence))
        (r₀.encodeSlot H (Rollover.slot sequence) ⟨sequence,position,message,he⟩)).drop
          maxProtectedJournalBytes = (r₀.publish (Rollover.slot sequence)
            ⟨sequence,position,message,he⟩).encode H := by
      rw [Rollover.encode_publish,← written,Rollover.slotOffset,Nat.add_assoc]
      apply overwrite_drop_within
      rw [length]
      simp only [maxRolloverJournalBytes]
      omega
    have hsu (n m : Nat) (h : n + m ≤ maxProtectedJournalBytes) := take_drop_of_take ht h
    have hop := @Opens.rolled H context publicKey _ c
      (r₀.publish (Rollover.slot sequence) ⟨sequence,position,message,he⟩)
      (by rw [← head]; exact hsu 0 journalHeaderBytes (by simp [maxProtectedJournalBytes]))
      (hle.trans length)
      (by
        rw [← run]
        apply replay_take
        apply hsu
        simp [maxProtectedJournalBytes,recordSize,Nat.mul_comm])
      (by rw [hd,hl,hs]; exact Rollover.decode_encode hv')
      hd
    have hj : (Journal.ofChain c maxJournalRecords
        (journalIdentity H context publicKey true) true).withRollover
          (r₀.publish (Rollover.slot sequence) ⟨sequence,position,message,he⟩) =
        { (Journal.ofChain c maxJournalRecords
            (journalIdentity H context publicKey true) true).withRollover r₀ with
          previous := some ((Journal.ofChain c maxJournalRecords
            (journalIdentity H context publicKey true) true).withRollover r₀).state
          last := some (position,message), safety := some he
          rollover := some (r₀.publish (Rollover.slot sequence) ⟨sequence,position,message,he⟩)
          count := sequence } := by
      simp only [Journal.withRollover,hla,ho]
      rfl
    rw [hj] at hop
    exact hop

end

section
variable (H : Hasher) (context : SigningContext) (publicKey : Fixed 32)

def InStep (file : File) (j : Journal) : Prop :=
  ∃ content, file = .settled content ∧ Opens H context publicKey content j

def Holds (file : File) (d : Option Decision) : Prop :=
  ∀ content, file.MayRead content → ∀ j, Opens H context publicKey content j →
    Reaches d j.decision

def Leaves (file : File) (old : Option Decision) (d : Decision) : Prop :=
  ∀ content, file.Whole content → ∀ j, Opens H context publicKey content j →
    j.decision = old ∨ j.decision = some d

def Settles (j : Journal) (d : Decision) : Journal × File × Except KeystoreError Unit → Prop
  | (j', file, .ok ()) => InStep H context publicKey file j' ∧ j'.decision = some d ∧
      Reaches j.decision (some d)
  | (j', file, .error _) =>
      (InStep H context publicKey file j' ∧ j'.decision = j.decision) ∨
      (j'.poisoned = true ∧ Holds H context publicKey file j.decision ∧
        Leaves H context publicKey file j.decision d)

variable {H context publicKey} {file : File} {j : Journal} {position : SigningPosition}
  {message : Hash256} {safety : Option SigningSafety} {sequence : Nat}

lemma InStep.holds (h : InStep H context publicKey file j) :
    Holds H context publicKey file j.decision := by
  obtain ⟨ct,rfl,ho⟩ := h
  intro read hr j' hj'
  rw [File.mayRead_settled hr] at hj'
  rw [ho.unique hj']
  exact .refl _

lemma Holds.lose {d : Option Decision} (h : Holds H context publicKey file d)
    (left : Bytes) : Holds H context publicKey (file.lose left) d :=
  fun ct hr => h ct (File.mayRead_lose hr)

lemma InStep.leaves {d : Decision} (h : InStep H context publicKey file j) :
    Leaves H context publicKey file j.decision d := by
  obtain ⟨ct,rfl,ho⟩ := h
  intro read hr j' hj'
  rw [File.whole_settled hr] at hj'
  rw [hj'.unique ho]
  exact .inl rfl

variable {ct bs left : Bytes}

lemma leaves_failed {off : Nat} {j' : Journal} {d : Decision}
    (h : Opens H context publicKey ct j)
    (h' : Opens H context publicKey (overwrite ct off bs) j')
    (hd : j'.decision = j.decision ∨ j'.decision = some d) :
    Leaves H context publicKey ((File.settled ct).write off bs (.failed left)).1 j.decision d := by
  rintro read (rfl | ⟨write,hw,rfl⟩) k hk
  · rw [hk.unique h]
    exact .inl rfl
  · obtain rfl : (off,bs) = write := Option.some.inj hw
    rwa [hk.unique h']

lemma holds_failed_append {off : Nat} (h : Opens H context publicKey ct j)
    (hr : j.rollover = none) (ho : off = ct.length) :
    Holds H context publicKey ((File.settled ct).write off bs (.failed left)).1 j.decision := by
  intro read hre j' hj'
  obtain ⟨torn,_,rfl⟩ := File.mayRead_failed hre
  rw [ho,overwrite_end] at hj'
  exact opens_append h hr hj'

lemma holds_failed_slot {r : Rollover} (h : Opens H context publicKey ct j)
    (hr : j.rollover = some r) (hl : bs.length = protectedRecordBytes) :
    Holds H context publicKey ((File.settled ct).write
      (Rollover.slotOffset (Rollover.slot (j.count + 1))) bs (.failed left)).1 j.decision := by
  intro read hre j' hj'
  obtain ⟨torn,ht,rfl⟩ := File.mayRead_failed hre
  exact opens_slot h hr (hl ▸ ht) hj'

lemma Opens.appending_length (h : Opens H context publicKey ct j) (hr : j.rollover = none) :
    ct.length = journalHeaderBytes + j.count * recordSize j.isProtected := by
  cases h with
  | rolled => simp [Journal.withRollover] at hr
  | appending head length bound run => exact length

lemma commitEntry_settles (io : WriteOutcome) (h : InStep H context publicKey file j)
    (ha : j.Admits sequence position safety)
    (hro : j.rollover = none → j.count ≠ maxJournalRecords) :
    Settles H context publicKey j ⟨position,message,safety⟩
      (j.commitEntry H file io sequence position message safety) := by
  obtain ⟨ct,rfl,ho⟩ := h
  have hre := ha.reaches message ho.sound
  unfold Journal.commitEntry
  cases hr : j.rollover with
  | some r =>
    cases safety with
    | none => exact .inl ⟨⟨ct,rfl,ho⟩,rfl⟩
    | some he =>
      simp only
      cases hp : r.prepare H sequence position message he with
      | error e => exact .inl ⟨⟨ct,rfl,ho⟩,rfl⟩
      | ok prepared =>
        obtain ⟨slot,bs⟩ := prepared
        cases io with
        | done => exact ⟨⟨_,rfl,opens_publish ho hr ha.phase hp⟩,rfl,hre⟩
        | failed left =>
          have hn := opens_publish ho hr ha.phase hp
          obtain ⟨rfl,rfl,_⟩ := Rollover.prepare_ok hp
          refine .inr ⟨rfl,?_,leaves_failed ho hn (.inr rfl)⟩
          rw [ha.next]
          exact holds_failed_slot ho hr (Rollover.encodeSlot_length _ _)
  | none =>
    have hl : journalHeaderBytes + j.count * recordSize safety.isSome = ct.length := by
      rw [ho.appending_length hr,ha.mode]
    simp only [entryBytes_take]
    have hn := opens_entry message ho hr ha (hro hr)
    rw [← overwrite_end,← hl,hr] at hn
    cases io with
    | done => exact ⟨⟨_,rfl,hn⟩,rfl,hre⟩
    | failed left =>
      exact .inr ⟨rfl,holds_failed_append ho hr hl,leaves_failed ho hn (.inr rfl)⟩

lemma activateIf_settles (io : WriteOutcome) (d : Decision)
    (h : InStep H context publicKey file j) :
    match j.activateIf H file io with
    | (j',file',.ok ()) => InStep H context publicKey file' j' ∧
        (j' = j ∨ ∃ r, j' = { j with rollover := some r }) ∧
        (j'.rollover = none → ¬(j.isProtected = true ∧ j.count = maxJournalRecords))
    | (j',file',.error _) =>
        (InStep H context publicKey file' j' ∧ j'.decision = j.decision) ∨
        (j'.poisoned = true ∧ Holds H context publicKey file' j.decision ∧
          Leaves H context publicKey file' j.decision d) := by
  by_cases hn : j.isProtected = true ∧ j.count = maxJournalRecords ∧ j.rollover.isNone
  · rw [Journal.activateIf,if_pos hn]
    obtain ⟨hp,hc,hno⟩ := hn
    have hr : j.rollover = none := by simpa using hno
    obtain ⟨ct,rfl,ho⟩ := h
    have hl : maxProtectedJournalBytes = ct.length := by
      rw [ho.appending_length hr,hp,appending_full hc]
    unfold Journal.activateRollover
    rw [if_neg (by simp [hp,hc,hr])]
    cases hne : Rollover.new H j.tip j.last j.safety with
    | error e => exact .inl ⟨⟨ct,rfl,ho⟩,rfl⟩
    | ok r =>
      have ha := opens_activation ho hr hp hc hne
      rw [← overwrite_end,← hl] at ha
      cases io with
      | done => exact ⟨⟨_,rfl,ha⟩,.inr ⟨r,rfl⟩,by simp⟩
      | failed left =>
        exact .inr ⟨rfl,holds_failed_append ho hr hl,leaves_failed ho ha (.inl rfl)⟩
  · rw [Journal.activateIf,if_neg hn]
    exact ⟨h,.inl rfl,fun hno hf => hn ⟨hf.1,hf.2,by simp [hno]⟩⟩

lemma reserveEntry_settles (io : ReserveIo) (position : SigningPosition) (message : Hash256)
    (safety : Option SigningSafety) (h : InStep H context publicKey file j) :
    Settles H context publicKey j ⟨position,message,safety⟩
      (j.reserveEntry H file io position message safety) := by
  have hs : ∀ e, Settles H context publicKey j ⟨position,message,safety⟩
      (j,file,.error e) := fun e => .inl ⟨h,rfl⟩
  unfold Journal.reserveEntry
  split
  · exact hs _
  split
  · exact hs _
  rename_i hp
  split
  · exact hs _
  rename_i hm
  split
  · exact .inr ⟨rfl,h.holds,h.leaves⟩
  cases had : j.admission position message safety with
  | error e => exact hs e
  | ok admission =>
    cases admission with
    | repeated =>
      have hd := Journal.admission_repeated had
      exact ⟨h,hd,hd ▸ .refl _⟩
    | fresh sequence =>
      have ha := Journal.admission_fresh (not_not.mp hm) (UInt8.not_lt.mp hp) had
      have hac := activateIf_settles io.activation ⟨position,message,safety⟩ h
      revert hac
      rcases j.activateIf H file io.activation with ⟨j',file',e | ⟨⟩⟩
      · exact fun hac => hac
      · rintro ⟨hi,hj,hr⟩
        have hr' : j'.rollover = none → j'.count ≠ maxJournalRecords := by
          intro hn hc
          have hc : j.count = maxJournalRecords := by
            rcases hj with rfl | ⟨r,rfl⟩ <;> exact hc
          cases hpr : j.isProtected with
          | false => exact ha.room hpr hc
          | true => exact hr hn ⟨hpr,hc⟩
        rcases hj with rfl | ⟨r,rfl⟩
        · exact commitEntry_settles io.entry hi ha hr'
        · exact commitEntry_settles io.entry hi
            ⟨ha.mode,ha.phase,ha.later,ha.follows,ha.next,ha.bounded,ha.room⟩ hr'

end
end Astrolune.Keystore
