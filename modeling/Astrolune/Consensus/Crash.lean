import Astrolune.Consensus.Rules

namespace Astrolune.Consensus
open Lib Codec Keystore List

section
variable {cr : Keystore.Crypto} {ctx : SigningContext} {seed : Fixed 32}

def Shows (crypto : Keystore.Crypto) (context : SigningContext) (seed : Fixed 32) (file : File)
    (P : Decision → Prop) : Prop :=
  ∀ content, file.Whole content → ∀ j,
    Opens crypto.blake2s context (crypto.ed25519PublicKey seed) content j → ∀ d ∈ j.decision, P d

variable {file : File} {P Q : Decision → Prop}

lemma Shows.imp (h : Shows cr ctx seed file P) (hp : ∀ d, P d → Q d) : Shows cr ctx seed file Q :=
  fun ct hc j hj d hd => hp d (h ct hc j hj d hd)

lemma Shows.lose (h : Shows cr ctx seed file P) (left : Bytes) :
    Shows cr ctx seed (file.lose left) P :=
  fun ct hc => h ct (File.whole_lose hc)

lemma Shows.sync (h : Shows cr ctx seed file P) (hw : file.Whole file.visible) :
    Shows cr ctx seed file.sync P := by
  intro ct hc
  rw [File.whole_settled hc]
  exact h file.visible hw

lemma Shows.sign {signer signer' : DurableSigner} {file' : File} {anchor anchor' : Option File}
    {io : SignIo} {handle : KeyHandle} {pos : SigningPosition} {msg : Hash256}
    {sf : Option SigningSafety} {res : Except KeystoreError (Fixed 64)}
    (h : Shows cr ctx seed file P)
    (hli : signer.journal.poisoned = true ∨ InStep cr.blake2s ctx
      (cr.ed25519PublicKey seed) file signer.journal)
    (hn : P ⟨pos,msg,sf⟩)
    (hsi : signer.sign cr file anchor io handle pos msg sf =
      (signer',file',anchor',res)) : Shows cr ctx seed file' P := by
  rcases sign_journal hsi with ⟨_,rfl,_⟩ | ⟨reserved,hr,_⟩
  · exact h
  rcases hli with hp | hi
  · simp only [reserveEntry_poisoned hp,Prod.mk.injEq] at hr
    exact hr.2.1 ▸ h
  have ho : ∀ d ∈ signer.journal.decision, P d := by
    obtain ⟨ct,rfl,hop⟩ := hi
    exact h ct (.inl rfl) _ hop
  have hs := reserveEntry_settles io.reserve pos msg sf hi
  rw [hr] at hs
  -- in every outcome the file shows the old decision or the new one
  have hl : Leaves cr.blake2s ctx (cr.ed25519PublicKey seed) file'
      signer.journal.decision ⟨pos,msg,sf⟩ := by
    cases reserved with
    | ok _ =>
      obtain ⟨hi',hd,_⟩ := hs
      intro ct hc j hj
      exact .inr (hd ▸ (hi'.leaves ct hc j hj).elim id fun h => h.trans hd.symm)
    | error e =>
      rcases hs with ⟨hi',hd⟩ | ⟨_,_,hl⟩
      · exact hd ▸ hi'.leaves
      · exact hl
  intro ct hc j hj d hd
  rcases hl ct hc j hj with heq | heq
  · exact ho d (heq ▸ hd)
  · cases heq.symm.trans hd
    exact hn

/-- What an opening leaves when no signer runs: nothing new, an old journal now synced, or a
freshly created one. -/
inductive Opening (crypto : Keystore.Crypto) (context : SigningContext) (seed : Fixed 32)
    (h h' : Host) : Prop where
  | refused (journal : h'.journal = h.journal) (live : h'.live = none)
  | opened {old : File} {j : Journal} (before : h.journal = some old)
      (opens : Opens crypto.blake2s context (crypto.ed25519PublicKey seed) old.visible j)
      (journal : h'.journal = some old.sync)
      (live : ∀ signer ∈ h'.live, signer.journal = j ∧
        signer.validator = crypto.blake2s (crypto.ed25519PublicKey seed).1)
  | created {file : File} (before : h.journal = none) (journal : h'.journal = some file)
      (empty : ∀ P, Shows crypto context seed file P)
      (live : ∀ signer ∈ h'.live, signer.journal.decision = none ∧
        signer.validator = crypto.blake2s (crypto.ed25519PublicKey seed).1)

lemma not_opens_nil (j : Journal) : ¬Opens cr.blake2s ctx (cr.ed25519PublicKey seed) [] j := by
  have hp : 0 < journalHeaderBytes := by decide
  intro hj
  cases hj with
  | appending head length bound run =>
    rw [length_nil] at length
    omega
  | rolled head length run extension written =>
    simp only [length_nil,maxRolloverJournalBytes,maxProtectedJournalBytes] at length
    omega

lemma created_shows {prot : Bool} (io : WriteOutcome) (P : Decision → Prop) :
    Shows cr ctx seed ((File.settled []).write 0 (headerVersion cr.blake2s ctx
      (cr.ed25519PublicKey seed) prot) io).1 P := by
  have he : ∀ j, Opens cr.blake2s ctx (cr.ed25519PublicKey seed)
      (headerVersion cr.blake2s ctx (cr.ed25519PublicKey seed) prot) j →
      ∀ d ∈ j.decision, P d := by
    intro j hj d hd
    rw [hj.unique (opens_header _ _ _)] at hd
    cases hd
  have ho : overwrite [] 0 (headerVersion cr.blake2s ctx (cr.ed25519PublicKey seed) prot) =
      headerVersion cr.blake2s ctx (cr.ed25519PublicKey seed) prot := by
    simp [overwrite]
  cases io with
  | done =>
    intro ct hc
    rw [File.whole_settled hc,File.settled,ho]
    exact he
  | failed left =>
    rintro ct (rfl | ⟨write,hw,rfl⟩) j hj
    · exact absurd hj (not_opens_nil j)
    · obtain rfl : (0,_) = write := Option.some.inj hw
      simp only [File.write,File.settled,ho] at hj
      exact he j hj

lemma opening_cases {h : Host} {e : Event} (hi : h.live = none) (he : opensSigner e = true) :
    Opening cr ctx seed h (h.step cr ctx seed e) := by
  have hno : ∀ signer ∈ h.live, False := by simp [hi]
  cases e with
  | create prot io =>
    simp only [Host.step,Host.create]
    split
    · exact .refused rfl hi
    · rename_i hn
      have hnon : h.journal = none := by simpa using fun hso => hn (.inl hso)
      have hsh (P : Decision → Prop) := @created_shows cr ctx seed prot io P
      cases io with
      | failed left => exact .created hnon rfl hsh fun signer hs => (hno signer hs).elim
      | done =>
        refine .created hnon rfl hsh ?_
        rintro signer ⟨⟩
        exact ⟨rfl,rfl⟩
  | openSigner synced =>
    simp only [Host.step]
    split
    · exact .refused rfl hi
    · rename_i file journal ho
      obtain ⟨_,old,hol,rfl,hop⟩ := openJournal_some ho
      refine .opened hol hop rfl ?_
      rintro signer ⟨⟩
      exact ⟨rfl,rfl⟩
  | createAnchor synced io =>
    simp only [Host.step,Host.createAnchor]
    split
    · exact .refused rfl hi
    · rename_i file journal ho
      obtain ⟨_,old,hol,rfl,hop⟩ := openJournal_some ho
      split
      · exact .opened hol hop rfl (by simp [hi])
      · cases io with
        | failed left => exact .opened hol hop rfl fun signer hs => (hno signer hs).elim
        | done =>
          refine .opened hol hop rfl ?_
          rintro signer ⟨⟩
          exact ⟨rfl,rfl⟩
  | openWithAnchor journalSynced anchorSynced io =>
    simp only [Host.step,Host.openWithAnchor]
    split
    · exact .refused rfl hi
    · rename_i file journal ho
      obtain ⟨_,old,hol,rfl,hop⟩ := openJournal_some ho
      split
      · exact .opened hol hop rfl (by simp [hi])
      · split
        · exact .opened hol hop rfl (by simp [hi])
        · refine .opened hol hop rfl ?_
          rintro signer ⟨⟩
          exact ⟨rfl,rfl⟩
  | sign handle pos msg sf io stopped => cases he
  | stop => cases he
  | powerLoss journalLeft anchorLeft => cases he
  | restore file => cases he

lemma opening_released {h : Host} {e : Event} (he : opensSigner e = true) :
    (h.step cr ctx seed e).released = h.released := by
  cases e with
  | create prot io =>
    simp only [Host.step,Host.create]
    split
    · rfl
    · cases io <;> rfl
  | openSigner synced =>
    simp only [Host.step]
    split <;> rfl
  | createAnchor synced io =>
    simp only [Host.step,Host.createAnchor]
    split
    · rfl
    · split
      · rfl
      · cases io <;> rfl
  | openWithAnchor journalSynced anchorSynced io =>
    simp only [Host.step,Host.openWithAnchor]
    split
    · rfl
    · split
      · rfl
      · split <;> rfl
  | sign handle pos msg sf io stopped => cases he
  | stop => cases he
  | powerLoss journalLeft anchorLeft => cases he
  | restore file => cases he

end

lemma LocalBft.new_ok {com : AuthenticatedCommittee} {signer : DurableSigner}
    {gen : Hash256} {b : LocalBft} (h : new com signer gen = .ok b) :
    b.committee = com ∧ b.signer = signer ∧ b.voter = signer.validator ∧
      restored com signer = .ok (b.round,b.step,b.locked) := by
  obtain ⟨_,_,h⟩ := bind_eq_ok.mp h
  obtain ⟨_,_,h⟩ := bind_eq_ok.mp h
  obtain ⟨voter,hv,h⟩ := bind_eq_ok.mp h
  obtain ⟨_,_,h⟩ := bind_eq_ok.mp h
  obtain ⟨⟨round,step,locked⟩,hr,h⟩ := bind_eq_ok.mp h
  cases h
  have hv := signing_eq_ok.mp hv
  unfold DurableSigner.validatorId at hv
  split at hv
  · cases hv
  · split at hv
    · cases hv
    · cases hv
      exact ⟨rfl,rfl,rfl,hr⟩

section
variable {pr : Provider} {ctx : SigningContext} {com : AuthenticatedCommittee}
  {seed : Fixed 32}

lemma Node.boot_host (n : Node) (opening : Event) : ∃ events, (∀ e ∈ events, e.keepsJournal = true) ∧
      (n.boot pr ctx com seed opening).host pr =
        runs (Host.step pr.toCrypto ctx seed) (n.host pr) events := by
  unfold Node.boot
  split
  · exact ⟨[],by simp,rfl⟩
  rename_i hno
  have ho : opensSigner opening = true := by
    cases h : opensSigner opening
    · exact absurd (.inr h) hno
    · rfl
  have hk : opening.keepsJournal = true := by cases opening <;> first | rfl | cases ho
  have hr := @opening_released pr.toCrypto ctx seed (n.host pr) opening ho
  rcases hs : (n.host pr).step pr.toCrypto ctx seed opening with
    ⟨journal,anchor,live,released⟩
  rw [hs] at hr
  cases hr
  cases live with
  | none => exact ⟨[opening],by simpa using hk,hs.symm⟩
  | some signer =>
    cases hn : LocalBft.new com signer ctx.genesis with
    | error e =>
      refine ⟨[opening,.stop],?_,?_⟩
      · intro event he
        rcases mem_pair.mp he with rfl | rfl
        · exact hk
        · rfl
      · change _ = ((n.host pr).step pr.toCrypto ctx seed opening).step pr.toCrypto ctx seed .stop
        rw [hs]
        simp [Node.host,Host.step,hn,Except.toOption]
    | ok b =>
      refine ⟨[opening],by simpa using hk,?_⟩
      change _ = (n.host pr).step pr.toCrypto ctx seed opening
      rw [hs]
      simp [Node.host,hn,Except.toOption,(LocalBft.new_ok hn).2.1]

def Node.signEvent (provider : Provider) (b : LocalBft) (r : Release) (io : SignIo) (stopped : Bool) : Event :=
  let d := r.decision provider.blake2s
  .sign b.handle d.position d.message d.safety io stopped

lemma Node.sign_host {n : Node} {b : LocalBft} {file : File} (hb : n.bft = some b)
    (hf : n.journal = some file) (r : Release) (io : SignIo) (stopped : Bool) :
    (n.host pr).step pr.toCrypto ctx seed (Node.signEvent pr b r io stopped) =
      match b.signRelease pr ⟨file,n.anchor⟩ io r with
      | (signer,journal,anchor,.error _) =>
        ⟨some journal,anchor,some signer,(n.host pr).released⟩
      | (signer,journal,anchor,.ok _) =>
        if stopped then ⟨some journal,anchor,none,(n.host pr).released⟩
        else ⟨some journal,anchor,some signer, r.decision pr.blake2s :: (n.host pr).released⟩ := by
  let d := r.decision pr.blake2s
  rcases hs : b.signer.sign pr.toCrypto file n.anchor io b.handle d.position d.message d.safety with
    ⟨signer,journal,anchor,e | signature⟩
  all_goals
    simp [Node.signEvent,Host.step,Host.signEvent,Node.host,hb,hf,LocalBft.signRelease,d,hs]

lemma Node.makeCall_host (n : Node) (call : Call) (io : SignIo) (stopped : Bool) :
    ∃ events, (∀ e ∈ events, e.keepsJournal = true) ∧ (n.makeCall pr call io stopped).host pr =
        runs (Host.step pr.toCrypto ctx seed) (n.host pr) events := by
  unfold Node.makeCall
  split
  · rename_i b file hb hf
    have hef := @LocalBft.call_effect pr b ⟨file,n.anchor⟩ io call
    generalize b.call pr ⟨file,n.anchor⟩ io call = outcome at hef
    have hst (h : Host) : h.step pr.toCrypto ctx seed .stop = { h with live := none } := rfl
    cases hef with
    | @quiet b' moves =>
      have hs : b'.signer = b.signer := by cases moves <;> rfl
      cases stopped with
      | true =>
        refine ⟨[.stop],by simp [Event.keepsJournal],?_⟩
        simp [runs,hst,Node.host,hf]
      | false => exact ⟨[],by simp,by simp [runs,Node.host,hb,hf,hs]⟩
    | @refused r step signer journal anchor e asks signed =>
      have hsi := @Node.sign_host pr ctx seed n b file hb hf r io false
      rw [signed] at hsi
      cases stopped with
      | true =>
        refine ⟨[Node.signEvent pr b r io false,.stop],?_,?_⟩
        · intro event he
          rcases mem_pair.mp he with rfl | rfl <;> rfl
        · simp only [runs,foldl_cons,foldl_nil,hsi,hst]
          rfl
      | false =>
        refine ⟨[Node.signEvent pr b r io false],?_,?_⟩
        · intro event he
          rw [mem_singleton.mp he]
          rfl
        · simp only [runs,foldl_cons,foldl_nil,hsi]
          rfl
    | @granted r step signer journal anchor sig asks signed =>
      have hsi := @Node.sign_host pr ctx seed n b file hb hf r io stopped
      rw [signed] at hsi
      refine ⟨[Node.signEvent pr b r io stopped],?_,?_⟩
      · intro event he
        rw [mem_singleton.mp he]
        rfl
      · simp only [runs,foldl_cons,foldl_nil,hsi]
        cases stopped <;> simp [Node.host,Release.decision_sign]
  · exact ⟨[],by simp,rfl⟩

lemma Node.step_host (n : Node) (e : NodeEvent) : ∃ events, (∀ x ∈ events, x.keepsJournal = true) ∧
      (n.step pr ctx com seed e).host pr =
        runs (Host.step pr.toCrypto ctx seed) (n.host pr) events := by
  cases e with
  | boot opening => exact n.boot_host opening
  | call call io stopped => exact n.makeCall_host call io stopped
  | stop =>
    exact ⟨[.stop],by simp [Event.keepsJournal],by simp [runs,Node.step,Node.host,Host.step]⟩
  | powerLoss journalLeft anchorLeft =>
    exact ⟨[.powerLoss journalLeft anchorLeft],by simp [Event.keepsJournal],
      by simp [runs,Node.step,Node.host,Host.step]⟩

lemma Node.step_safe {n : Node} (e : NodeEvent)
    (h : (n.host pr).Safe pr.toCrypto ctx seed) :
    ((n.step pr ctx com seed e).host pr).Safe pr.toCrypto ctx seed := by
  obtain ⟨events,hk,hr⟩ := @Node.step_host pr ctx com seed n e
  rw [hr]
  exact runs_invariant (fun h e he hs => Host.Safe.step e he hs) hk h

end
end Astrolune.Consensus
