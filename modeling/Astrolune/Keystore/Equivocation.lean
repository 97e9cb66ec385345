import Mathlib.Data.List.Pairwise
import Astrolune.Keystore.Durable
import Astrolune.Types.Digest

namespace Astrolune.Keystore
open Lib Codec List

/-- Signatures in the order in which they were released: one digest a position, and positions
that never decrease. -/
structure NoFork (released : List Decision) : Prop where
  digest : ∀ a ∈ released, ∀ b ∈ released, a.position = b.position → a.message = b.message
  order : released.Pairwise fun a b => a.position ≤ b.position

structure NoEquivocation (released : List Decision) : Prop extends NoFork released where
  safety : released.Pairwise fun a b => a.position.height = b.position.height →
    ∀ held ∈ a.safety, ∃ next ∈ b.safety, held.committeeRoot = next.committeeRoot ∧
      ∀ lock ∈ held.locked, ∃ lock' ∈ next.locked, lock.round < lock'.round ∨ lock' = lock

def Decision.Later (a b : Decision) : Prop :=
  a.position < b.position ∨ a.position = b.position ∧ a.message = b.message

variable {released : List Decision} {b : Decision}

lemma noFork_of_later (h : released.Pairwise Decision.Later) : NoFork released := by
  have hs : Std.Symm fun a b : Decision => a.position = b.position → a.message = b.message :=
    ⟨fun _ _ hab hp => (hab hp.symm).symm⟩
  have hme {a b : Decision} (hab : a.Later b) (hp : a.position = b.position) :
      a.message = b.message := by
    rcases hab with hl | ⟨_,hm⟩
    · exact absurd hp hl.ne
    · exact hm
  have hal := (h.imp hme).forall_of_forall fun _ _ _ => rfl
  refine ⟨fun a ha b hb => hal ha hb,h.imp fun hab => ?_⟩
  rcases hab with hl | ⟨hp,_⟩
  · exact hl.le
  · exact hp.le

lemma Decision.Extends.later {a : Decision} (h : a.Extends b) : a.Later b := by
  rcases h with rfl | h
  · exact .inr ⟨rfl,rfl⟩
  · exact .inl h.position

lemma Decision.Extends.follows {a : Decision} (h : a.Extends b)
    (hh : a.position.height = b.position.height) :
    ∀ he ∈ a.safety, ∃ next ∈ b.safety, he.Follows next := by
  rcases h with rfl | h
  · exact fun he hm => ⟨he,hm,.refl he⟩
  · exact h.safety hh

lemma noEquivocation_of_chain
    (h : released.Pairwise Decision.Extends) : NoEquivocation released := by
  refine ⟨noFork_of_later (h.imp Decision.Extends.later),h.imp fun ha hh he hm => ?_⟩
  obtain ⟨next,hn,hf⟩ := ha.follows hh he hm
  exact ⟨next,hn,hf.root,hf.lock⟩

section
variable (crypto : Crypto) (context : SigningContext) (seed : Fixed 32)

/-- The journal side of a host: no content its file may show opens behind a released decision,
and a usable signer agrees with its file. -/
structure Host.Safe (h : Host) : Prop where
  chain : h.released.Pairwise fun newer older => older.Extends newer
  absent : h.journal = none → h.released = []
  holds : ∀ file ∈ h.journal, ∀ d ∈ h.released,
    Holds crypto.blake2s context (crypto.ed25519PublicKey seed) file (some d)
  live : ∀ signer ∈ h.live, ∃ file ∈ h.journal, signer.journal.poisoned = true ∨
    InStep crypto.blake2s context (crypto.ed25519PublicKey seed) file signer.journal

variable {crypto context seed}

variable {H : Hasher} {file : File} {h : Host}

variable {pk : Fixed 32} {pos : SigningPosition} {msg : Hash256} {sf : Option SigningSafety}

lemma Holds.mono {a b : Option Decision} (ha : Reaches a b)
    (h : Holds H context pk file b) : Holds H context pk file a :=
  fun ct hr j hj => ha.trans (h ct hr j hj)

lemma Holds.sync {d : Option Decision}
    (h : Holds H context pk file d) : Holds H context pk file.sync d := by
  intro ct hr
  rw [File.mayRead_settled hr]
  exact h _ file.mayRead_visible

lemma Reaches.extends {a b : Decision} (h : Reaches (some a) (some b)) : a.Extends b := by
  obtain ⟨e,he,ha⟩ := h a rfl
  cases he
  exact ha

lemma openJournal_some {synced : Bool} {journal : Journal}
    (ho : h.openJournal crypto context seed synced = some (file,journal)) :
    h.live = none ∧ ∃ old, h.journal = some old ∧ file = old.sync ∧
      Opens crypto.blake2s context (crypto.ed25519PublicKey seed) old.visible journal := by
  unfold Host.openJournal at ho
  split at ho
  · rename_i old hl hj
    split at ho
    · cases ho
    · split at ho
      · rename_i journal' hop
        cases ho
        exact ⟨hl,old,hj,rfl,openBytes_ok.mp hop⟩
      · cases ho
  · cases ho

lemma Host.Safe.opened {h' : Host} {synced : Bool} {journal : Journal}
    (hs : h.Safe crypto context seed)
    (ho : h.openJournal crypto context seed synced = some (file,journal))
    (hfi : h'.journal = some file) (hr : h'.released = h.released)
    (hl : ∀ signer ∈ h'.live, signer.journal = journal) : h'.Safe crypto context seed := by
  obtain ⟨_,old,hol,rfl,hop⟩ := openJournal_some ho
  refine ⟨hr ▸ hs.chain,by simp [hfi],?_,?_⟩
  · intro file hf d hd
    cases hfi.symm.trans hf
    exact (hs.holds old hol d (hr ▸ hd)).sync
  · intro signer hsi
    refine ⟨old.sync,hfi,.inr ⟨old.visible,rfl,?_⟩⟩
    rw [hl signer hsi]
    exact hop

lemma opens_header (H : Hasher) (pk : Fixed 32) (prot : Bool) :
    Opens H context pk (headerVersion H context pk prot) (.ofChain (originChain H context pk prot) 0
        (journalIdentity H context pk prot) prot) := by
  have hl : (headerVersion H context pk prot).length =
      journalHeaderBytes := headerVersion_length prot
  exact .appending (take_of_length_le hl.le) (by simpa using hl) (Nat.zero_le _) rfl

lemma Host.Safe.create (hs : h.Safe crypto context seed) (prot : Bool) (io : WriteOutcome) :
    (h.create crypto context seed prot io).Safe crypto context seed := by
  unfold Host.create
  split
  · exact hs
  · rename_i hn
    have hno : h.journal = none := by simpa using fun hso => hn (.inl hso)
    have he : ∀ d ∈ h.released, False := by simp [hs.absent hno]
    cases io with
    | failed left =>
      refine ⟨hs.chain,nofun,fun _ _ d hd => (he d hd).elim,fun signer hsi => ?_⟩
      obtain ⟨file,hf,_⟩ := hs.live signer hsi
      simp [hno] at hf
    | done =>
      refine ⟨hs.chain,nofun,fun _ _ d hd => (he d hd).elim,fun signer hsi => ?_⟩
      refine ⟨_,rfl,.inr ⟨headerVersion crypto.blake2s context (crypto.ed25519PublicKey seed)
        prot,by simp [File.settled,overwrite],?_⟩⟩
      cases hsi
      exact opens_header _ _ _

lemma sign_journal {signer signer' : DurableSigner} {file' : File} {anchor anchor' : Option File}
    {io : SignIo} {handle : KeyHandle} {res : Except KeystoreError (Fixed 64)}
    (h : signer.sign crypto file anchor io handle pos msg sf = (signer',file',anchor',res)) :
    (signer'.journal = signer.journal ∧ file' = file ∧ ∃ e, res = .error e) ∨
    ∃ reserved, signer.journal.reserveEntry crypto.blake2s file io.reserve pos msg sf =
      (signer'.journal,file',reserved) ∧ ((∃ e, res = .error e) ∨ reserved = .ok ()) := by
  unfold DurableSigner.sign at h
  split at h
  · cases h
    exact .inl ⟨rfl,rfl,_,rfl⟩
  split at h
  · cases h
    exact .inl ⟨rfl,rfl,_,rfl⟩
  split at h
  · rename_i journal file₁ e hr
    cases h
    exact .inr ⟨_,hr,.inl ⟨_,rfl⟩⟩
  · rename_i journal file₁ hr
    have hk (s : DurableSigner) (f : Option File) (o : WriteOutcome) :
        (s.witness crypto f o).1.journal = s.journal := by
      unfold DurableSigner.witness
      split <;> rfl
    have hj := hk { signer with journal } anchor io.witness
    split at h
    · rename_i s a e hw
      rw [hw] at hj
      cases h
      obtain rfl : signer'.journal = journal := hj
      exact .inr ⟨_,hr,.inl ⟨_,rfl⟩⟩
    · rename_i s a hw
      rw [hw] at hj
      cases h
      obtain rfl : signer'.journal = journal := hj
      exact .inr ⟨_,hr,.inr rfl⟩

lemma reserveEntry_poisoned {j : Journal} {io : ReserveIo} (hp : j.poisoned = true) :
    j.reserveEntry H file io pos msg sf = (j,file,.error .durabilityUnknown) := by
  rw [Journal.reserveEntry,if_pos hp]

lemma Host.Safe.sign (hs : h.Safe crypto context seed) (handle : KeyHandle)
    (pos : SigningPosition) (msg : Hash256) (sf : Option SigningSafety) (io : SignIo)
    (stopped : Bool) :
    (h.signEvent crypto handle pos msg sf io stopped).Safe crypto context seed := by
  unfold Host.signEvent
  split
  · rename_i signer file hl hf
    obtain ⟨file₀,hfile₀,hsi⟩ := hs.live signer hl
    cases hf.symm.trans hfile₀
    rcases hc : signer.sign crypto file h.anchor io handle pos msg sf with
      ⟨signer',file',anchor',result⟩
    -- what the call did to the journal and its file
    have ha : (∀ d ∈ h.released, Holds crypto.blake2s context (crypto.ed25519PublicKey seed)
          file' (some d)) ∧
        (signer'.journal.poisoned = true ∨
          InStep crypto.blake2s context (crypto.ed25519PublicKey seed) file' signer'.journal) ∧
        (∀ sig, result = .ok sig →
          InStep crypto.blake2s context (crypto.ed25519PublicKey seed) file' signer'.journal ∧
          signer'.journal.decision = some ⟨pos,msg,sf⟩ ∧
          ∀ d ∈ h.released, d.Extends ⟨pos,msg,sf⟩) := by
      have hol := hs.holds file hf
      rcases sign_journal hc with ⟨hj,rfl,e,rfl⟩ | ⟨reserved,hres,hresu⟩
      · exact ⟨hol,hj ▸ hsi,nofun⟩
      rcases hsi with hp | hi
      · simp only [reserveEntry_poisoned hp,Prod.mk.injEq] at hres
        obtain ⟨hj,rfl,rfl⟩ := hres
        refine ⟨hol,.inl (hj ▸ hp),fun sig ho => ?_⟩
        rcases hresu with ⟨e,rfl⟩ | hb
        · cases ho
        · cases hb
      · have hr : ∀ d ∈ h.released, Reaches (some d) signer.journal.decision := by
          obtain ⟨ct,rfl,hop⟩ := hi
          exact fun d hd => hol d hd ct (File.mayRead_visible _) _ hop
        have hse := reserveEntry_settles io.reserve pos msg sf hi
        rw [hres] at hse
        cases reserved with
        | error e =>
          have hb : ∀ sig, result ≠ .ok sig := by
            rintro sig rfl
            rcases hresu with ⟨_,h⟩ | h <;> cases h
          rcases hse with ⟨hi',hd'⟩ | ⟨hp',hh,_⟩
          · refine ⟨fun d hd => ?_,.inr hi',fun sig ho => (hb sig ho).elim⟩
            exact Holds.mono (hr d hd) (hd' ▸ hi'.holds)
          · refine ⟨fun d hd => ?_,.inl hp',fun sig ho => (hb sig ho).elim⟩
            exact Holds.mono (hr d hd) hh
        | ok _ =>
          obtain ⟨hi',hd',hn⟩ := hse
          refine ⟨fun d hd => ?_,.inr hi',fun _ _ => ⟨hi',hd',fun d hd => ?_⟩⟩
          · exact Holds.mono ((hr d hd).trans hn) (hd' ▸ hi'.holds)
          · exact ((hr d hd).trans hn).extends
    obtain ⟨hh,hl',hre⟩ := ha
    cases result with
    | error e =>
      refine ⟨hs.chain,nofun,?_,?_⟩
      · rintro _ ⟨⟩
        exact hh
      · rintro _ ⟨⟩
        exact ⟨file',rfl,hl'⟩
    | ok sig =>
      obtain ⟨hi,hd,he⟩ := hre sig rfl
      cases stopped with
      | true =>
        refine ⟨hs.chain,nofun,?_,by simp⟩
        rintro _ ⟨⟩
        exact hh
      | false =>
        refine ⟨pairwise_cons.mpr ⟨he,hs.chain⟩,nofun,?_,?_⟩
        · rintro _ ⟨⟩ d hm
          rcases mem_cons.mp hm with rfl | hm
          · exact hd ▸ hi.holds
          · exact hh d hm
        · rintro _ ⟨⟩
          exact ⟨file',rfl,hl'⟩
  · exact hs

def Event.keepsJournal : Event → Bool
  | .restore _ => false
  | _ => true

lemma Host.Safe.stopped (hs : h.Safe crypto context seed) :
    Host.Safe crypto context seed { h with live := none } :=
  ⟨hs.chain,hs.absent,hs.holds,by simp⟩

lemma Host.Safe.powerLoss (hs : h.Safe crypto context seed) (journalLeft : Bytes)
    (anchor : Option File) :
    Host.Safe crypto context seed
      { h with journal := h.journal.map (·.lose journalLeft), anchor, live := none } := by
  refine ⟨hs.chain,fun hn => hs.absent (by simpa using hn),?_,by simp⟩
  intro file hf d hd
  obtain ⟨old,ho,rfl⟩ := Option.map_eq_some_iff.mp hf
  exact (hs.holds old ho d hd).lose journalLeft

lemma Host.Safe.createAnchor (hs : h.Safe crypto context seed) (synced : Bool) (io : WriteOutcome) :
    (h.createAnchor crypto context seed synced io).Safe crypto context seed := by
  unfold Host.createAnchor
  split
  · exact hs
  · rename_i file journal ho
    obtain ⟨hn,_⟩ := openJournal_some ho
    have hi : ∀ signer ∈ h.live, signer.journal = journal := by simp [hn]
    simp only
    split
    · exact hs.opened ho rfl rfl hi
    · cases io with
      | failed left => exact hs.opened ho rfl rfl hi
      | done => exact hs.opened ho rfl rfl (by rintro _ ⟨⟩; rfl)

lemma Host.Safe.openWithAnchor (hs : h.Safe crypto context seed)
    (journalSynced anchorSynced : Bool) (io : WriteOutcome) :
    (h.openWithAnchor crypto context seed journalSynced anchorSynced io).Safe
      crypto context seed := by
  unfold Host.openWithAnchor
  split
  · exact hs
  · rename_i file journal ho
    obtain ⟨hn,_⟩ := openJournal_some ho
    have hi : ∀ signer ∈ h.live, signer.journal = journal := by simp [hn]
    split
    · exact hs.opened ho rfl rfl hi
    · split
      · exact hs.opened ho rfl rfl hi
      · exact hs.opened ho rfl rfl (by rintro _ ⟨⟩; rfl)

lemma Host.Safe.step (e : Event) (he : e.keepsJournal = true) (hs : h.Safe crypto context seed) :
    (h.step crypto context seed e).Safe crypto context seed := by
  cases e with
  | create prot io => exact hs.create prot io
  | openSigner synced =>
    simp only [Host.step]
    split
    · exact hs
    · rename_i file journal ho
      exact hs.opened ho rfl rfl (by rintro _ ⟨⟩; rfl)
  | createAnchor synced io => exact hs.createAnchor synced io
  | openWithAnchor journalSynced anchorSynced io =>
    exact hs.openWithAnchor journalSynced anchorSynced io
  | sign handle pos msg sf io stopped =>
    exact hs.sign handle pos msg sf io stopped
  | stop => exact hs.stopped
  | powerLoss journalLeft anchorLeft => exact hs.powerLoss journalLeft _
  | restore file => cases he

lemma Host.start_safe (journal anchor : Option File) :
    (Host.start journal anchor).Safe crypto context seed :=
  ⟨.nil,fun _ => rfl,by simp [Host.start],by simp [Host.start]⟩

end

/-- Over every run of one host, with any failed or torn write, any crash and any number of
reopenings, released signatures never equivocate, never go back, and keep their committee
and lock within a height. No collision assumption on the checksum is needed. -/
theorem durable_signer_no_equivocation (crypto : Crypto) (context : SigningContext)
    (seed : Fixed 32) (journal anchor : Option File) (events : List Event)
    (hevents : ∀ e ∈ events, e.keepsJournal = true) :
    NoEquivocation
      (runs (Host.step crypto context seed) (Host.start journal anchor) events).released.reverse := by
  have hsa : (runs (Host.step crypto context seed) (Host.start journal anchor) events).Safe
      crypto context seed :=
    runs_invariant (fun h e he hs => Host.Safe.step e he hs) hevents (Host.start_safe journal anchor)
  exact noEquivocation_of_chain (pairwise_reverse.mpr hsa.chain)

namespace Sample

def crypto : Crypto := ⟨residueHash, id, fun _ _ => Fixed.fill 64 0⟩
def context : SigningContext := ⟨7, Fixed.fill 32 8⟩
def seed : Fixed 32 := Fixed.fill 32 9
def handle : KeyHandle := ⟨hexText (residueHash seed.1).1, .consensus⟩
def safety : SigningSafety := ⟨Fixed.fill 32 9, none⟩
def io (entry : WriteOutcome) : SignIo := ⟨⟨true, .done, entry⟩, .done⟩

def tornRun : List Event :=
  [.create true .done,
   .sign handle ⟨1, 0, 1⟩ seed (some safety) (io .done) false,
   .sign handle ⟨1, 0, 2⟩ seed (some safety) (io (.failed [1, 2])) false,
   .powerLoss [] [],
   .openSigner true,
   .sign handle ⟨1, 0, 2⟩ seed (some safety) (io .done) false]

end Sample

theorem durable_signer_torn_run :
    (runs (Host.step Sample.crypto Sample.context Sample.seed) (Host.start none none)
      Sample.tornRun).released.length = 2 ∧
    NoEquivocation (runs (Host.step Sample.crypto Sample.context Sample.seed)
      (Host.start none none) Sample.tornRun).released.reverse :=
  ⟨by decide +kernel,durable_signer_no_equivocation _ _ _ _ _ _ (by decide +kernel)⟩

end Astrolune.Keystore
