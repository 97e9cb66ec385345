import Astrolune.Keystore.Rollback

namespace Astrolune.Keystore
open Lib Codec List

section
variable (H : Hasher) (context : SigningContext) (publicKey : Fixed 32)

def Journal.created (isProtected : Bool) : Journal :=
  .ofChain (originChain H context publicKey isProtected) 0
    (journalIdentity H context publicKey isProtected) isProtected

/-- A created journal after successful reservations, with its file and every watermark it has
had, the newest first. -/
inductive Reserved : List JournalState → Journal → File → Prop where
  | created (isProtected : Bool) :
      Reserved [(Journal.created H context publicKey isProtected).state]
        (Journal.created H context publicKey isProtected)
        (.settled (headerVersion H context publicKey isProtected))
  | reserve {history : List JournalState} {j j' : Journal} {file file' : File} {io : ReserveIo}
      {position : SigningPosition} {message : Hash256} {safety : Option SigningSafety}
      (earlier : Reserved history j file)
      (success : j.reserveEntry H file io position message safety = (j', file', .ok ())) :
      Reserved (j'.state :: history) j' file'

variable {H context publicKey} {hist : List JournalState} {j j' : Journal}
  {file file' : File} {position : SigningPosition} {msg : Hash256}
  {sf : Option SigningSafety}

/-- One more decision, directly after the watermark of `j`. -/
structure Journal.Succeeds (j j' : Journal) : Prop where
  count : j'.count = j.count + 1
  bounded : j'.count < 2 ^ 64
  previous : j'.previous = some j.state
  position : positionBefore j.state.position j'.state.position = true

lemma commitEntry_succeeds {io : WriteOutcome} {seq : Nat} (ha : j.Admits seq position sf)
    (h : j.commitEntry H file io seq position msg sf = (j',file',.ok ())) :
    j.Succeeds j' := by
  have hb : positionBefore j.state.position (some position) = true := by
    have hla := ha.later
    change positionBefore (j.last.map Prod.fst) (some position) = true
    cases hl : j.last with
    | none => rfl
    | some last => exact decide_eq_true (hla last hl)
  unfold Journal.commitEntry at h
  split at h
  · split at h
    · cases h
    · split at h
      · cases h
      · split at h
        · cases h
        · cases h
          exact ⟨ha.next,ha.bounded,rfl,hb⟩
  · simp only at h
    split at h
    · cases h
    · cases h
      exact ⟨ha.next,ha.bounded,rfl,hb⟩

lemma activateIf_cases {io : WriteOutcome}
    (h : j.activateIf H file io = (j',file',.ok ())) : ∃ r, j' = { j with rollover := r } := by
  unfold Journal.activateIf at h
  split at h
  · unfold Journal.activateRollover at h
    split at h
    · cases h
    · split at h
      · cases h
      · split at h
        · cases h
        · cases h
          exact ⟨_,rfl⟩
  · cases h
    exact ⟨j.rollover,rfl⟩

lemma reserveEntry_cases {io : ReserveIo}
    (h : j.reserveEntry H file io position msg sf = (j',file',.ok ())) :
    j' = j ∨ j.Succeeds j' := by
  unfold Journal.reserveEntry at h
  split at h
  · cases h
  split at h
  · cases h
  rename_i hp
  split at h
  · cases h
  rename_i hm
  split at h
  · cases h
  split at h
  · cases h
  · cases h
    exact .inl rfl
  · rename_i sequence had
    have ha := Journal.admission_fresh (not_not.mp hm) (UInt8.not_lt.mp hp) had
    split at h
    · cases h
    · rename_i hac
      obtain ⟨r,rfl⟩ := activateIf_cases hac
      have hact : Journal.Admits { j with rollover := r } sequence position sf :=
        ⟨ha.mode,ha.phase,ha.later,ha.follows,ha.next,ha.bounded,ha.room⟩
      have hs := commitEntry_succeeds hact h
      exact .inr ⟨hs.count,hs.bounded,hs.previous,hs.position⟩

lemma Reserved.inStep (h : Reserved H context publicKey hist j file) :
    InStep H context publicKey file j := by
  induction h with
  | created prot => exact ⟨_,rfl,opens_header H publicKey prot⟩
  | @reserve hist j j' file file' io position msg sf earlier success ih =>
    have hs := reserveEntry_settles io position msg sf ih
    rw [success] at hs
    exact hs.1

/-- What the journal knows of the watermarks it has had: the last two of them. -/
structure Remembers (history : List JournalState) (j : Journal) : Prop where
  bound : ∀ state ∈ history, state.sequence ≤ j.count
  current : ∀ state ∈ history, state.sequence = j.count → state = j.state
  previous : ∀ state ∈ history, state.sequence + 1 = j.count → j.previous = some state ∧
    j.count < 2 ^ 64 ∧ positionBefore state.position j.state.position = true

lemma Remembers.again (h : Remembers hist j) : Remembers (j.state :: hist) j where
  bound state hst := by
    rcases mem_cons.mp hst with rfl | hst
    · exact Nat.le_refl _
    · exact h.bound state hst
  current state hst hs := by
    rcases mem_cons.mp hst with rfl | hst
    · rfl
    · exact h.current state hst hs
  previous state hst hs := by
    rcases mem_cons.mp hst with rfl | hst
    · exact absurd hs (Nat.succ_ne_self j.count)
    · exact h.previous state hst hs

lemma Remembers.next (h : Remembers hist j) (hn : j.Succeeds j') :
    Remembers (j'.state :: hist) j' where
  bound state hst := by
    rcases mem_cons.mp hst with rfl | hst
    · exact Nat.le_refl _
    · rw [hn.count]
      exact Nat.le_succ_of_le (h.bound state hst)
  current state hst hs := by
    rcases mem_cons.mp hst with rfl | hst
    · rfl
    · have hb := h.bound state hst
      rw [hs,hn.count] at hb
      exact absurd hb (Nat.not_succ_le_self j.count)
  previous state hst hs := by
    rcases mem_cons.mp hst with rfl | hst
    · exact absurd hs (Nat.succ_ne_self j'.count)
    · -- only the watermark the new decision followed is one behind it
      have hc : state.sequence = j.count := Nat.succ.inj (hs.trans hn.count)
      obtain rfl := h.current state hst hc
      exact ⟨hn.previous,hn.bounded,hn.position⟩

lemma Reserved.remembers (h : Reserved H context publicKey hist j file) : Remembers hist j := by
  induction h with
  | created prot =>
    refine ⟨?_,?_,?_⟩ <;> intro st hst <;> obtain rfl := mem_singleton.mp hst
    · exact Nat.le_refl _
    · exact fun _ => rfl
    · exact fun hs => absurd hs (Nat.succ_ne_zero _)
  | reserve earlier success ih =>
    rcases reserveEntry_cases success with rfl | hn
    · exact ih.again
    · exact ih.next hn

lemma AnchorStore.latest_update (a : AnchorStore) {slot : Fin 2} {st : JournalState}
    (h : a.latest.sequence < st.sequence) :
    ({ a with slots := Function.update a.slots slot st } : AnchorStore).latest = st := by
  have hs : ∀ s, (a.slots s).sequence < st.sequence := by
    unfold AnchorStore.latest at h
    rw [Fin.forall_fin_two]
    split at h <;> omega
  have hz := hs 0
  have ho := hs 1
  unfold AnchorStore.latest
  match slot with
  | 0 => simp [ho]
  | 1 => simp [Nat.le_of_lt hz]

lemma Remembers.reconcile (h : Remembers hist j) (a : AnchorStore) (anchorFile : File)
    (hp : a.poisoned = false) (hl : a.latest ∈ hist)
    (hne : j.count ≤ a.latest.sequence + 1) :
    ∃ a' anchorFile', a.reconcile H anchorFile .done j.state j.previous =
        (a',anchorFile',.ok ()) ∧ a'.latest = j.state ∧ a'.poisoned = false := by
  have hbo := h.bound _ hl
  have hst : ¬ j.state.sequence < a.latest.sequence := Nat.not_lt.mpr hbo
  unfold AnchorStore.reconcile
  rw [if_neg hst]
  split
  · next hs =>
    have hc := h.current _ hl hs
    rw [if_pos hc]
    exact ⟨a,anchorFile,rfl,hc,hp⟩
  · next hn =>
    have hlt : a.latest.sequence < j.count := Nat.lt_of_le_of_ne hbo hn
    have hsu : a.latest.sequence + 1 = j.count := Nat.le_antisymm hlt hne
    obtain ⟨hpr,hf,hb⟩ := h.previous _ hl hsu
    have ha : checkedAdd64 a.latest.sequence 1 = some j.state.sequence :=
      checkedAdd64_eq_some.mpr ⟨hsu.symm,hf⟩
    rw [if_neg (not_not.mpr ha),if_pos hpr]
    have hnew : a.latest ≠ j.state := fun heq => hn (congrArg JournalState.sequence heq)
    unfold AnchorStore.commit
    rw [hp,if_neg Bool.false_ne_true,if_neg hnew,if_neg (not_not.mpr ⟨ha,hb⟩)]
    exact ⟨_,_,rfl,a.latest_update hlt,rfl⟩

end

/-- A journal opens again as it was, and an anchor no more than one decision behind it
reconciles. -/
theorem journal_reopens (H : Hasher) (context : SigningContext)
    (publicKey : Fixed 32) (history : List JournalState) (j : Journal) (file : File)
    (h : Reserved H context publicKey history j file) :
    Journal.openBytes H context publicKey file.visible = .ok j ∧
      ∀ (a : AnchorStore) (anchorFile : File), a.poisoned = false → a.latest ∈ history →
        j.count ≤ a.latest.sequence + 1 →
        ∃ a' anchorFile', a.reconcile H anchorFile .done j.state j.previous =
          (a', anchorFile', .ok ()) ∧ a'.latest = j.state ∧ a'.poisoned = false := by
  obtain ⟨content,rfl,ho⟩ := h.inStep
  exact ⟨openBytes_of_opens ho,fun a anchorFile => h.remembers.reconcile a anchorFile⟩

lemma Reserved.call {H : Hasher} {context : SigningContext} {publicKey : Fixed 32}
    {hist : List JournalState} {j : Journal} {file : File}
    (h : Reserved H context publicKey hist j file) {io : ReserveIo}
    {pos : SigningPosition} {msg : Hash256} {sf : Option SigningSafety}
    (ho : (j.reserveEntry H file io pos msg sf).2.2 = .ok ()) :
    Reserved H context publicKey ((j.reserveEntry H file io pos msg sf).1.state :: hist)
      (j.reserveEntry H file io pos msg sf).1
      (j.reserveEntry H file io pos msg sf).2.1 :=
  .reserve h (Prod.ext rfl (Prod.ext rfl ho))

namespace Sample

def createdJournal : Journal := .created crypto.blake2s context seed true

/-- Asks for one more decision, and keeps what the journal and its file are if it is recorded. -/
def request (acc : List JournalState × Journal × File) (position : SigningPosition) :
    List JournalState × Journal × File :=
  let (j, file, result) :=
    acc.2.1.reserveEntry crypto.blake2s acc.2.2 ⟨true, .done, .done⟩ position seed (some safety)
  if result = .ok () then (j.state :: acc.1, j, file) else acc

def decided (positions : List SigningPosition) : List JournalState × Journal × File :=
  positions.foldl request ([createdJournal.state], createdJournal, oldJournal)

/-- Three decisions, the second of them asked for twice. -/
def positions : List SigningPosition := [⟨1, 0, 1⟩, ⟨1, 0, 2⟩, ⟨1, 0, 2⟩, ⟨2, 0, 1⟩]

def anchorBehind : AnchorStore :=
  .fresh crypto.blake2s context seed createdJournal.identity (decided (positions.take 3)).2.1.state

lemma reserved_decided (l : List SigningPosition) :
    Reserved crypto.blake2s context seed (decided l).1 (decided l).2.1 (decided l).2.2 := by
  have hc : Reserved crypto.blake2s context seed [createdJournal.state] createdJournal oldJournal :=
    Reserved.created true
  refine foldlRecOn (motive := fun acc => Reserved crypto.blake2s context seed acc.1 acc.2.1 acc.2.2)
    l request (b := ([createdJournal.state],createdJournal,oldJournal)) hc ?_
  intro acc h position _
  by_cases ho : (acc.2.1.reserveEntry crypto.blake2s acc.2.2 ⟨true,.done,.done⟩ position seed
      (some safety)).2.2 = .ok ()
  · have hs := h.call ho
    simp only [request,ho,if_true]
    exact hs
  · simp only [request,ho,if_false]
    exact h

end Sample

open Sample in
theorem journal_reopens_after_retry :
    (decided positions).2.1.count = 3 ∧ (decided positions).1.length = 5 ∧
      Journal.openBytes crypto.blake2s context seed (decided positions).2.2.visible =
        .ok (decided positions).2.1 ∧
      ∃ a' anchorFile', anchorBehind.reconcile crypto.blake2s (.settled []) .done
        (decided positions).2.1.state (decided positions).2.1.previous = (a', anchorFile', .ok ()) ∧
          a'.latest = (decided positions).2.1.state ∧ a'.poisoned = false := by
  obtain ⟨hop,ha⟩ := journal_reopens _ _ _ _ _ _ (reserved_decided positions)
  exact ⟨by decide +kernel,by decide +kernel,hop,
    ha anchorBehind _ rfl (by decide +kernel) (by decide +kernel)⟩

end Astrolune.Keystore
