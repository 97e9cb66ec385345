import Astrolune.Keystore.Equivocation
import Astrolune.Keystore.Witness

namespace Astrolune.Keystore
open Lib Codec List Option

section
variable {H : Hasher} {context : SigningContext} {pk : Fixed 32}

lemma replay_last {prot : Bool} {n seq : Nat} {c c' : Chain} {rest : Bytes}
    (h : replay H prot n seq c rest = .ok c') :
    c'.last.isSome = (c.last.isSome || decide (0 < n)) := by
  induction n generalizing seq c rest with
  | zero => cases h; simp
  | succ n ih =>
    obtain ⟨_,_,h⟩ := bind_eq_ok.mp h
    obtain ⟨mid,hs,h⟩ := bind_eq_ok.mp h
    obtain ⟨_,_,hs⟩ := bind_eq_ok.mp hs
    obtain ⟨_,_,hs⟩ := bind_eq_ok.mp hs
    obtain ⟨_,_,hs⟩ := bind_eq_ok.mp hs
    cases hs
    rw [ih h]
    simp

variable {j : Journal} {file : File} {pos : SigningPosition} {msg : Hash256}
  {sf : Option SigningSafety} {w : JournalState} {d : Decision}

lemma Opens.canonical {ct : Bytes}
    (h : Opens H context pk ct j) : j.state.Canonical := by
  have hso := h.sound
  have hph : ∀ pos ∈ j.state.position, pos.phase ≤ precommitPhase := by
    intro pos hp
    obtain ⟨last,hl,rfl⟩ := map_eq_some_iff.mp hp
    exact hso.phase last hl
  cases h with
  | @appending prot count c head length bound run =>
    have hla := replay_last run
    simp only [originChain,isSome_none,Bool.false_or] at hla
    have hb : count < 2 ^ 64 := by
      refine lt_of_le_of_lt bound ?_
      simp only [maxJournalRecords]
      decide
    refine ⟨hb,fun hn => ?_,fun pos hp => ⟨?_,hph pos hp⟩⟩
    · have hn : c.last = none := map_eq_none_iff.mp hn
      refine ⟨?_,by simp [Journal.state,Chain.stateAt,Journal.ofChain,hn]⟩
      change count = 0
      simpa [hn] using hla
    · obtain ⟨last,hl,_⟩ := map_eq_some_iff.mp hp
      have hl : c.last = some last := hl
      change 0 < count
      simpa [hl] using hla.symm
  | @rolled c r head length run extension written =>
    obtain ⟨_,_,_,_,_,_,hv⟩ := Rollover.decode_ok extension
    obtain ⟨s,hs⟩ : ∃ s, r.latest = r.slots s := by
      rcases hv.cases with ⟨ha,hl,_⟩ | ⟨s,hl,_⟩
      · exact ⟨0,hl.trans (ha 0).symm⟩
      · exact ⟨s,hl⟩
    have hf := hv.fits s
    rw [← hs] at hf
    have hpo : 0 < maxJournalRecords := by simp only [maxJournalRecords]; decide
    refine ⟨hf.bounded,fun hn => ?_,fun pos hp => ⟨?_,hph pos hp⟩⟩
    · cases hn
    · exact lt_of_lt_of_le hpo (hf.le_sequence hv.prefixEnd)

lemma AnchorStore.opens_image {identity : Hash256} {st : JournalState} (h : st.Canonical) :
    Opens H context pk identity (image H context pk identity st)
      (fresh H context pk identity st) := by
  have hh : (header H context pk identity).length = headerBytes := header_length
  have hs (s : Fin 2) : (slotRecord H
      (headerChecksum H context pk identity) s st).length = slotBytes :=
    slotRecord_length _ s st
  have hi : image H context pk identity st = header H context pk identity ++
        (slotRecord H (headerChecksum H context pk identity) 0 st ++
          slotRecord H (headerChecksum H context pk identity) 1 st) := rfl
  refine ⟨?_,?_,rfl,rfl,rfl,Fin.forall_fin_two.mpr ⟨?_,?_⟩,.inl rfl⟩
  · rw [hi,length_append,length_append,hh,hs,hs]
    decide
  · rw [hi]
    exact take_left' hh
  · have h₀ : slotAt (image H context pk identity st) 0 =
        slotRecord H (headerChecksum H context pk identity) 0 st := by
      rw [hi,slotAt,slotOffset,Fin.val_zero,zero_mul,Nat.add_zero,drop_left' hh]
      exact take_left' (hs 0)
    rw [h₀]
    exact decodeSlot_slotRecord _ _ h
  · have h₁ : slotAt (image H context pk identity st) 1 =
        slotRecord H (headerChecksum H context pk identity) 1 st := by
      rw [hi,slotAt,slotOffset,Fin.val_one,one_mul,← drop_drop, drop_left' hh,drop_left' (hs 0)]
      exact take_of_length_le (hs 1).le
    rw [h₁]
    exact decodeSlot_slotRecord _ _ h

lemma reconcile_commits {a : AnchorStore} {cur : JournalState}
    (prev : Option JournalState) (io : WriteOutcome)
    (h : AnchorInStep H context pk file a) (hc : cur.Canonical) :
    Commits H context pk a cur (a.reconcile H file io cur prev) := by
  unfold AnchorStore.reconcile
  split
  · exact .inl ⟨h,rfl⟩
  split
  · split
    · rename_i heq
      exact ⟨h,heq,.inl heq⟩
    · exact .inl ⟨h,rfl⟩
  split
  · exact .inl ⟨h,rfl⟩
  split
  · exact commit_commits io h fun pos hp => (hc.present pos hp).2
  · exact .inl ⟨h,rfl⟩

lemma reserveEntry_last {j' : Journal} {file' : File} {io : ReserveIo}
    (h : j.reserveEntry H file io pos msg sf = (j',file',.ok ())) :
    pos.phase ≤ precommitPhase ∧ j'.last = some (pos,msg) := by
  unfold Journal.reserveEntry at h
  split at h
  · cases h
  split at h
  · cases h
  rename_i hp
  refine ⟨UInt8.not_lt.mp hp,?_⟩
  split at h
  · cases h
  split at h
  · cases h
  split at h
  · cases h
  · rename_i ha
    cases h
    have := Journal.admission_repeated ha
    obtain ⟨last,hl,he⟩ := map_eq_some_iff.mp this
    cases he
    exact hl
  · split at h
    · cases h
    · rename_i j₁ file₁ _
      unfold Journal.commitEntry at h
      split at h
      · split at h
        · cases h
        · split at h
          · cases h
          · split at h
            · cases h
            · cases h
              rfl
      · simp only at h
        split at h
        · cases h
        · cases h
          rfl

def JournalState.Covers (w : JournalState) (d : Decision) : Prop :=
  positionBefore (some d.position) w.position = true ∨
    w.position = some d.position ∧ w.message = d.message

lemma JournalState.Covers.advances {w' : JournalState} (h : w.Covers d)
    (ha : w.Advances w') : w'.Covers d := by
  rcases ha with rfl | ha
  · exact h
  · rcases h with h | ⟨hp,_⟩
    · exact .inl (positionBefore_trans h ha)
    · exact .inl (hp ▸ ha)

lemma JournalState.Covers.later (h : w.Covers d)
    (hp : w.position = some pos) (hm : w.message = msg) :
    d.Later ⟨pos,msg,sf⟩ := by
  rcases h with h | ⟨hd,hmd⟩
  · rw [hp] at h
    exact .inl (of_decide_eq_true h)
  · rw [hp] at hd
    exact .inr ⟨(some.inj hd).symm,hmd.symm.trans hm⟩

end

section
variable (crypto : Crypto) (context : SigningContext) (seed : Fixed 32)

def AnchorCovers (file : File) (d : Decision) : Prop :=
  ∀ content, file.MayRead content → ∀ identity a,
    AnchorStore.Opens crypto.blake2s context (crypto.ed25519PublicKey seed) identity content a →
    a.latest.Covers d

/-- The anchor side of a host. It says nothing about the journal file, which anybody may
replace. -/
structure Host.Witnessed (h : Host) : Prop where
  chain : h.released.Pairwise fun newer older => older.Later newer
  absent : h.anchor = none → h.released = []
  holds : ∀ file ∈ h.anchor, ∀ d ∈ h.released, AnchorCovers crypto context seed file d
  live : ∀ signer ∈ h.live, ∃ store ∈ signer.anchor, ∃ file ∈ h.anchor, store.poisoned = true ∨
    AnchorInStep crypto.blake2s context (crypto.ed25519PublicKey seed) file store

variable {crypto context seed}

variable {file : File} {d : Decision} {h : Host}

lemma AnchorHolds.covers {w : JournalState} (hd : w.Covers d)
    (h : AnchorHolds crypto.blake2s context (crypto.ed25519PublicKey seed) file w) :
    AnchorCovers crypto context seed file d :=
  fun ct hr identity a ha => hd.advances (h ct hr identity a ha)

variable {a : AnchorStore} {signer : DurableSigner}

lemma AnchorCovers.latest (h : AnchorCovers crypto context seed file d)
    (hi : AnchorInStep crypto.blake2s context (crypto.ed25519PublicKey seed) file a) :
    a.latest.Covers d := by
  obtain ⟨ct,identity,rfl,ho⟩ := hi
  exact h ct (File.mayRead_visible _) identity a ho

lemma AnchorCovers.commits {file' : File} {a' : AnchorStore} {st : JournalState}
    {res : Except KeystoreError Unit} (h : AnchorCovers crypto context seed file d)
    (hi : AnchorInStep crypto.blake2s context (crypto.ed25519PublicKey seed) file a)
    (hc : Commits crypto.blake2s context (crypto.ed25519PublicKey seed) a st
      (a',file',res)) : AnchorCovers crypto context seed file' d := by
  have ho := h.latest hi
  cases res with
  | ok _ =>
    obtain ⟨hi',hl,ha⟩ := hc
    exact hi'.holds.covers (hl ▸ ho.advances ha)
  | error e =>
    rcases hc with ⟨hi',hl⟩ | ⟨_,hh⟩
    · exact hi'.holds.covers (hl ▸ ho)
    · exact hh.covers ho

lemma openAnchor_some {identity : Hash256} {synced : Bool} {store : AnchorStore}
    (ho : h.openAnchor crypto context seed identity synced = some (file,store)) :
    ∃ old, h.anchor = some old ∧ file = old.sync ∧
      AnchorStore.Opens crypto.blake2s context (crypto.ed25519PublicKey seed) identity
        old.visible store := by
  unfold Host.openAnchor at ho
  split at ho
  · cases ho
  · rename_i old ha
    split at ho
    · cases ho
    · split at ho
      · rename_i store' hop
        cases ho
        exact ⟨old,ha,rfl,AnchorStore.openBytes_ok.mp hop⟩
      · cases ho

lemma AnchorCovers.sync (h : AnchorCovers crypto context seed file d) :
    AnchorCovers crypto context seed file.sync d := by
  intro ct hr
  rw [File.mayRead_settled hr]
  exact h _ file.mayRead_visible

/-- The anchor part of a signing call: the witness is asked to record the very decision that the
journal has just reserved, and only its consent lets the signature out. -/
lemma sign_anchor {signer' : DurableSigner} {file' anchor : File} {anchor' : Option File}
    {store : AnchorStore} {io : SignIo} {handle : KeyHandle} {pos : SigningPosition}
    {message : Hash256} {sf : Option SigningSafety} {res : Except KeystoreError (Fixed 64)}
    (hs : signer.anchor = some store)
    (h : signer.sign crypto file (some anchor) io handle pos message sf =
      (signer',file',anchor',res)) :
    (signer'.anchor = some store ∧ anchor' = some anchor ∧ ∃ e, res = .error e) ∨
    ∃ st store' after committed, store.poisoned = false ∧
      pos.phase ≤ precommitPhase ∧ st.position = some pos ∧ st.message = message ∧
      store.commit crypto.blake2s anchor io.witness st = (store',after,committed) ∧
      signer'.anchor = some store' ∧ anchor' = some after ∧
      ((∃ e, res = .error e) ∨ committed = .ok ()) := by
  unfold DurableSigner.sign at h
  split at h
  · cases h
    exact .inl ⟨hs,rfl,_,rfl⟩
  split at h
  · cases h
    exact .inl ⟨hs,rfl,_,rfl⟩
  rename_i hli
  split at h
  · cases h
    exact .inl ⟨hs,rfl,_,rfl⟩
  · rename_i journal file₁ hre
    obtain ⟨hp,hl⟩ := reserveEntry_last hre
    have hpo : journal.state.position = some pos := by
      simp [Journal.state,Chain.stateAt,hl]
    have hm : journal.state.message = message := by
      simp [Journal.state,Chain.stateAt,hl]
    rcases hc : store.commit crypto.blake2s anchor io.witness journal.state with
      ⟨store',after,committed⟩
    have hw : DurableSigner.witness crypto { signer with journal } (some anchor) io.witness =
        ({ signer with journal, anchor := some store' },some after,committed) := by
      simp only [DurableSigner.witness,hs,hc]
    have hr : store.poisoned = false := by simpa [hs] using hli
    rw [hw] at h
    refine .inr ⟨journal.state,store',after,committed,hr,hp,hpo,hm,hc,?_⟩
    cases committed with
    | error e =>
      cases h
      exact ⟨rfl,rfl,.inl ⟨e,rfl⟩⟩
    | ok _ =>
      cases h
      exact ⟨rfl,rfl,.inr rfl⟩

lemma Host.Witnessed.sign (hw : h.Witnessed crypto context seed) (handle : KeyHandle)
    (pos : SigningPosition) (msg : Hash256) (sf : Option SigningSafety) (io : SignIo)
    (stopped : Bool) :
    (h.signEvent crypto handle pos msg sf io stopped).Witnessed crypto context seed := by
  unfold Host.signEvent
  split
  · rename_i signer file hli hf
    obtain ⟨store,hst,anchor,han,hs⟩ := hw.live signer hli
    have ho := hw.holds anchor han
    rw [mem_def] at han hst
    rw [han]
    rcases hca : signer.sign crypto file (some anchor) io handle pos msg sf with
      ⟨signer',file',anchor',result⟩
    rcases sign_anchor hst hca with ⟨hk,rfl,e,rfl⟩ |
      ⟨state,store',after,committed,hr,hph,hpo,hms,hco,hn,rfl,hre⟩
    · refine ⟨hw.chain,nofun,?_,?_⟩
      · rintro _ ⟨⟩
        exact ho
      · rintro _ ⟨⟩
        exact ⟨store,hk,anchor,rfl,hs⟩
    have hi := hs.resolve_left (by simp [hr])
    have hc : Commits crypto.blake2s context (crypto.ed25519PublicKey seed) store state
        (store',after,committed) := by
      rw [← hco]
      refine commit_commits io.witness hi fun p hp => ?_
      cases hpo.symm.trans hp
      exact hph
    have hcov (d : Decision) (hd : d ∈ h.released) : AnchorCovers crypto context seed after d :=
      (ho d hd).commits hi hc
    cases result with
    | error e =>
      refine ⟨hw.chain,nofun,?_,?_⟩
      · rintro _ ⟨⟩
        exact hcov
      · rintro _ ⟨⟩
        refine ⟨store',hn,after,rfl,?_⟩
        cases committed with
        | ok _ => exact .inr hc.1
        | error _ => exact hc.symm.imp And.left And.left
    | ok sig =>
      obtain rfl : committed = .ok () := hre.resolve_left nofun
      obtain ⟨hi',hl,ha⟩ := hc
      cases stopped with
      | true =>
        refine ⟨hw.chain,nofun,?_,by simp⟩
        rintro _ ⟨⟩
        exact hcov
      | false =>
        refine ⟨pairwise_cons.mpr ⟨fun d hd => ?_,hw.chain⟩,nofun,?_,?_⟩
        · exact (((ho d hd).latest hi).advances ha).later hpo hms
        · rintro _ ⟨⟩ d hm
          rcases mem_cons.mp hm with rfl | hm
          · refine hi'.holds.covers (.inr ?_)
            rw [hl]
            exact ⟨hpo,hms⟩
          · exact hcov d hm
        · rintro _ ⟨⟩
          exact ⟨store',hn,after,rfl,.inr hi'⟩
  · exact hw

lemma Host.Witnessed.createAnchor (hw : h.Witnessed crypto context seed) (synced : Bool)
    (io : WriteOutcome) :
    (h.createAnchor crypto context seed synced io).Witnessed crypto context seed := by
  unfold Host.createAnchor
  split
  · exact hw
  · rename_i file journal ho
    obtain ⟨hi,_,_,_,hop⟩ := openJournal_some ho
    simp only
    split
    · exact ⟨hw.chain,hw.absent,hw.holds,by simp [hi]⟩
    rename_i hn
    have he : ∀ d ∈ h.released, False := by simp [hw.absent (by simpa using hn)]
    have hno : ∀ signer ∈ h.live, False := by simp [hi]
    cases io with
    | failed left =>
      exact ⟨hw.chain,nofun,fun _ _ d hd => (he d hd).elim, fun signer hs => (hno signer hs).elim⟩
    | done =>
      refine ⟨hw.chain,nofun,fun _ _ d hd => (he d hd).elim,?_⟩
      rintro _ ⟨⟩
      refine ⟨_,rfl,_,rfl,.inr ⟨_,journal.identity,?_,AnchorStore.opens_image hop.canonical⟩⟩
      simp [File.settled,overwrite]

lemma Host.Witnessed.openWithAnchor (hw : h.Witnessed crypto context seed)
    (journalSynced anchorSynced : Bool) (io : WriteOutcome) :
    (h.openWithAnchor crypto context seed journalSynced anchorSynced io).Witnessed
      crypto context seed := by
  unfold Host.openWithAnchor
  split
  · exact hw
  rename_i file journal ho
  obtain ⟨hi,_,_,_,hop⟩ := openJournal_some ho
  split
  · exact ⟨hw.chain,hw.absent,hw.holds,by simp [hi]⟩
  rename_i anchor store ha
  obtain ⟨old,hol,rfl,hs⟩ := openAnchor_some ha
  have hin : AnchorInStep crypto.blake2s context (crypto.ed25519PublicKey seed) old.sync store :=
    ⟨old.visible,_,rfl,hs⟩
  have hc := reconcile_commits journal.previous io hin hop.canonical
  rcases hr : store.reconcile crypto.blake2s old.sync io journal.state journal.previous with
    ⟨store',anchor',result⟩
  rw [hr] at hc
  have hco (d : Decision) (hd : d ∈ h.released) : AnchorCovers crypto context seed anchor' d :=
    (hw.holds old hol d hd).sync.commits hin hc
  cases result with
  | error e =>
    refine ⟨hw.chain,nofun,?_,by simp [hi]⟩
    rintro _ ⟨⟩
    exact hco
  | ok _ =>
    refine ⟨hw.chain,nofun,?_,?_⟩
    · rintro _ ⟨⟩
      exact hco
    · rintro _ ⟨⟩
      exact ⟨store',rfl,anchor',rfl,.inr hc.1⟩

/-- Events of a journal used only together with its anchor. Its file may be replaced by any
other one while no signer runs. -/
def Event.anchored : Event → Bool
  | .create .. | .openSigner _ => false
  | _ => true

lemma Host.Witnessed.step (e : Event) (he : e.anchored = true)
    (hw : h.Witnessed crypto context seed) :
    (h.step crypto context seed e).Witnessed crypto context seed := by
  cases e with
  | create prot io => cases he
  | openSigner synced => cases he
  | createAnchor synced io => exact hw.createAnchor synced io
  | openWithAnchor journalSynced anchorSynced io =>
    exact hw.openWithAnchor journalSynced anchorSynced io
  | sign handle pos msg sf io stopped =>
    exact hw.sign handle pos msg sf io stopped
  | stop => exact ⟨hw.chain,hw.absent,hw.holds,by simp [Host.step]⟩
  | powerLoss journalLeft anchorLeft =>
    refine ⟨hw.chain,fun hn => hw.absent (by simpa [Host.step] using hn),?_,by simp [Host.step]⟩
    intro file hf d hd ct hr
    obtain ⟨old,ho,rfl⟩ := map_eq_some_iff.mp hf
    exact hw.holds old ho d hd ct (File.mayRead_lose hr)
  | restore file => exact ⟨hw.chain,hw.absent,hw.holds,hw.live⟩

lemma Host.start_witnessed (journal : Option File) :
    (Host.start journal none).Witnessed crypto context seed :=
  ⟨.nil,fun _ => rfl,by simp [Host.start],by simp [Host.start]⟩

lemma openWithAnchor_watermark {journalSynced anchorSynced : Bool} {io : WriteOutcome}
    (hw : h.Witnessed crypto context seed) (hi : h.live = none)
    (hs : signer ∈ (h.openWithAnchor crypto context seed journalSynced anchorSynced io).live) :
    ∀ d ∈ h.released, signer.journal.state.Covers d := by
  unfold Host.openWithAnchor at hs
  split at hs
  · simp [hi] at hs
  rename_i file journal ho
  obtain ⟨_,_,_,_,hop⟩ := openJournal_some ho
  split at hs
  · simp [hi] at hs
  rename_i anchor store ha
  obtain ⟨old,hol,rfl,hst⟩ := openAnchor_some ha
  have hin : AnchorInStep crypto.blake2s context (crypto.ed25519PublicKey seed) old.sync store :=
    ⟨old.visible,_,rfl,hst⟩
  have hc := reconcile_commits journal.previous io hin hop.canonical
  split at hs
  · simp [hi] at hs
  · rename_i store' anchor' hr
    rw [hr] at hc
    obtain ⟨_,_,had⟩ := hc
    cases hs
    exact fun d hd => ((hw.holds old hol d hd).sync.latest hin).advances had

end

/-- Over every run of a journal paired with its anchor, with the journal file replaced by
anything at all before any opening, released signatures never fork and never go back, and an
opening that succeeds stands at or after every released decision. -/
theorem anchor_defeats_rollback (crypto : Crypto) (context : SigningContext) (seed : Fixed 32)
    (journal : Option File) (events : List Event) (hevents : ∀ e ∈ events, e.anchored = true) :
    let h := runs (Host.step crypto context seed) (Host.start journal none) events
    NoFork h.released.reverse ∧
      ∀ journalSynced anchorSynced io, h.live = none →
        ∀ signer ∈ (h.step crypto context seed (.openWithAnchor journalSynced anchorSynced io)).live,
          ∀ d ∈ h.released, ∃ last ∈ signer.journal.last,
            d.position < last.1 ∨ last = (d.position, d.message) := by
  intro h
  have hw : h.Witnessed crypto context seed :=
    runs_invariant (fun h e he hw => Host.Witnessed.step e he hw) hevents
      (Host.start_witnessed journal)
  refine ⟨noFork_of_later (pairwise_reverse.mpr hw.chain),?_⟩
  intro journalSynced anchorSynced io hi signer hs d hd
  have hc := openWithAnchor_watermark hw hi hs d hd
  cases hl : signer.journal.last with
  | none =>
    simp [JournalState.Covers,Journal.state,Chain.stateAt,hl,positionBefore] at hc
  | some last =>
    refine ⟨last,rfl,?_⟩
    simp only [JournalState.Covers,Journal.state,Chain.stateAt,hl,map_some,
      positionBefore,decide_eq_true_eq,some.injEq,getD_some] at hc
    exact hc.imp_right fun heq => Prod.ext heq.1 heq.2

namespace Sample

def oldJournal : File := .settled (headerVersion crypto.blake2s context seed true)

def anchoredRun : List Event :=
  [.createAnchor true .done,
   .sign handle ⟨1, 0, 1⟩ seed (some safety) (io .done) false,
   .sign handle ⟨1, 0, 2⟩ seed (some safety) (io .done) false,
   .stop]

def anchoredHost : Host :=
  runs (Host.step crypto context seed) (.start (some oldJournal) none) anchoredRun

end Sample

/-- The journal as the run left it opens again; its old copy does not. -/
theorem anchor_refuses_old_journal :
    (Sample.anchoredHost.step Sample.crypto Sample.context Sample.seed
      (.openWithAnchor true true .done)).live.isSome = true ∧
    (runs (Host.step Sample.crypto Sample.context Sample.seed) Sample.anchoredHost
      [.restore Sample.oldJournal, .openWithAnchor true true .done]).live.isSome = false ∧
    Sample.anchoredHost.released.length = 2 ∧ NoFork Sample.anchoredHost.released.reverse :=
  ⟨by decide +kernel,by decide +kernel,by decide +kernel,
    (anchor_defeats_rollback Sample.crypto Sample.context Sample.seed (some Sample.oldJournal)
      Sample.anchoredRun (by decide +kernel)).1⟩

end Astrolune.Keystore
