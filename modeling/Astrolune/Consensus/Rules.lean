import Astrolune.Consensus.Node

namespace Astrolune.Consensus
open Lib Codec Keystore Option

lemma consensus_eq_ok {α : Type} {x : Except ConsensusError α} {a : α} :
    consensus x = .ok a ↔ x = .ok a := by
  cases x <;> simp [consensus,Except.mapError]

lemma signing_eq_ok {α : Type} {x : Except KeystoreError α} {a : α} :
    signing x = .ok a ↔ x = .ok a := by
  cases x <;> simp [signing,Except.mapError]

def Call.presents : Call → PrevoteCertificate → Prop
  | .propose _ _ validRound _, proof => proof ∈ validRound
  | .prevote _ validRound _, proof => proof ∈ validRound
  | .prevoteProposal _ _ _ validRound _, proof => proof ∈ validRound
  | .precommit _ given _, proof => proof = given
  | _, _ => False

namespace LocalBft
variable {pr : Provider} {b : LocalBft}

def choice (provider : Provider) (b : LocalBft) : Call → Option (Except LocalBftError Choice)
  | .prevote header validRound validate => some (b.prevoteChoice provider header validRound validate)
  | .prevoteProposal expected proposal header validRound validate =>
    some (b.verifyProposal provider expected proposal header validRound >>= fun _ =>
      b.prevoteChoice provider (some header) validRound validate)
  | .precommit header proof validate => some (b.precommitChoice provider header proof validate)
  | .timeoutProposal round => some (b.timeoutProposalChoice round)
  | .timeoutPrevote round => some (b.timeoutPrevoteChoice round)
  | _ => none

lemma call_choice {call : Call} {c : Except LocalBftError Choice} (disk : Disk) (io : SignIo)
    (h : b.choice pr call = some c) :
    b.call pr disk io call = releaseVote (b.issueChoice pr disk io c) := by
  cases call with
  | prevoteProposal expected proposal hdr validRound validate =>
    simp only [choice,some.injEq] at h
    subst h
    simp only [LocalBft.call,prevoteProposal,prevote]
    cases b.verifyProposal pr expected proposal hdr validRound <;> rfl
  | prevote hdr validRound validate => cases h; rfl
  | precommit hdr pf validate => cases h; rfl
  | timeoutProposal round => cases h; rfl
  | timeoutPrevote round => cases h; rfl
  | propose expected hdr validRound validate => cases h
  | timeoutPrecommit round => cases h
  | finalize hdr cert validate => cases h

structure Accepts (b : LocalBft) (call : Call) (proof : PrevoteCertificate) : Prop where
  presented : call.presents proof
  context : proof.verifyContext b.committee = .ok ()

/-- The voting rules: what a node may ask its signer for. -/
inductive Chosen (b : LocalBft) (call : Call) : Choice → Prop where
  | prevote {block : Option Hash256} (ready : b.step = .awaitingProposal ∨ b.step = .prevoted)
      (unlock : ∀ value ∈ block, ∀ lock ∈ b.locked, lock.block = value ∨
        ∃ proof, b.Accepts call proof ∧ proof.block = value ∧ lock.round < proof.round ∧
          proof.round < b.round) : Chosen b call ⟨.prevote, block, b.locked⟩
  | pass (ready : b.step = .prevoted) : Chosen b call ⟨.precommit, none, b.locked⟩
  | precommit {proof : PrevoteCertificate} (ready : b.step = .prevoted ∨ b.step = .precommitted)
      (accepted : b.Accepts call proof) (round : proof.round = b.round) :
      Chosen b call ⟨.precommit, some proof.block, some ⟨b.round, proof.block⟩⟩

lemma prevoteChoice_ok {hdr : Option BlockHeader} {validRound : Option PrevoteCertificate}
    {validate : BlockHeader → Bool} {c : Choice} {call : Call}
    (hc : ∀ pf ∈ validRound, call.presents pf)
    (h : b.prevoteChoice pr hdr validRound validate = .ok c) : b.Chosen call c := by
  obtain ⟨_,hr,h⟩ := bind_eq_ok.mp h
  obtain ⟨_,hpr,h⟩ := bind_eq_ok.mp h
  cases h
  refine .prevote (ensure_eq_ok.mp hr) fun value hv lock hl => ?_
  obtain ⟨hb,hp⟩ := filter_eq_some_iff.mp hv
  obtain ⟨given,hg,rfl⟩ := map_eq_some_iff.mp hb
  obtain ⟨rfl,_⟩ := filter_eq_some_iff.mp hg
  rw [permitted,mem_def.mp hl,all_some,Bool.or_eq_true] at hp
  rcases hp with hs | hn
  · left
    rw [hb] at hs
    exact (some.inj (of_decide_eq_true hs)).symm
  · right
    obtain ⟨pf,rfl,hlt⟩ := (any_eq_true _ _).mp hn
    obtain ⟨_,hct,hro⟩ := bind_eq_ok.mp hpr
    obtain ⟨he,hh⟩ := ensure_eq_ok.mp hro
    exact ⟨pf,⟨hc pf rfl,consensus_eq_ok.mp hct⟩,
      (by simpa using hh : _ = pf.block).symm,of_decide_eq_true hlt,he⟩

lemma choice_chosen {call : Call} {c : Choice} (h : b.choice pr call = some (.ok c)) :
    b.Chosen call c := by
  cases call with
  | prevote hdr validRound validate =>
    exact prevoteChoice_ok (fun _ hp => hp) (some.inj h)
  | prevoteProposal expected proposal hdr validRound validate =>
    obtain ⟨_,_,h⟩ := bind_eq_ok.mp (some.inj h)
    exact prevoteChoice_ok (fun _ hp => hp) h
  | precommit hdr pf validate =>
    obtain ⟨_,hr,h⟩ := bind_eq_ok.mp (some.inj h)
    obtain ⟨_,hc,h⟩ := bind_eq_ok.mp h
    obtain ⟨_,hro,h⟩ := bind_eq_ok.mp h
    cases h
    exact .precommit (ensure_eq_ok.mp hr) ⟨rfl,consensus_eq_ok.mp hc⟩ (ensure_eq_ok.mp hro).1
  | timeoutProposal round =>
    obtain ⟨_,hr,h⟩ := bind_eq_ok.mp (some.inj h)
    cases h
    exact .prevote (.inl (ensure_eq_ok.mp hr).2) (by simp)
  | timeoutPrevote round =>
    obtain ⟨_,hr,h⟩ := bind_eq_ok.mp (some.inj h)
    cases h
    exact .pass (ensure_eq_ok.mp hr).2
  | propose expected hdr validRound validate => cases h
  | timeoutPrecommit round => cases h
  | finalize hdr cert validate => cases h

/-- An unsigned statement a node may ask its signer for, and the step it takes when it gets it. -/
inductive Asks (b : LocalBft) (call : Call) : Release → VotingStep → Prop where
  | vote {c : Choice} (chosen : b.Chosen call c) :
      Asks b call ⟨.vote (b.ballot c.phase c.block), c.locked⟩ c.phase.step
  | propose {p : Proposal} (ready : b.step = .awaitingProposal) (height : p.height = b.committee.height)
      (round : p.round = b.round) (root : p.committeeRoot = b.committee.root) :
      Asks b call ⟨.proposal p, b.locked⟩ b.step

/-- The steps that sign nothing: staying, leaving a precommitted round, and finality. -/
inductive Moves (b : LocalBft) : LocalBft → Prop where
  | stay : Moves b b
  | advance (ready : b.step = .precommitted) (room : b.round.toNat + 1 ≠ 2 ^ 32) :
      Moves b { b with round := b.round + 1, step := .awaitingProposal }
  | finalize (block : Hash256) : Moves b { b with finalized := some block, step := .finalized }

end LocalBft

def Release.sign (r : Release) (signature : Fixed 64) : Release :=
  match r.signed with
  | .proposal p => { r with signed := .proposal { p with signature } }
  | .vote v => { r with signed := .vote { v with signature } }

lemma Release.decision_sign (H : Hasher) (r : Release) (sig : Fixed 64) :
    (r.sign sig).decision H = r.decision H := by
  rcases r with ⟨_ | _,_⟩ <;> rfl

def LocalBft.signRelease (provider : Provider) (b : LocalBft) (disk : Disk) (io : SignIo)
    (r : Release) : DurableSigner × File × Option File × Except KeystoreError (Fixed 64) :=
  let d := r.decision provider.blake2s
  b.signer.sign provider.toCrypto disk.journal disk.anchor io b.handle d.position d.message d.safety

/-- Everything one call can do. -/
inductive LocalBft.Effect (provider : Provider) (b : LocalBft) (disk : Disk) (io : SignIo)
    (call : Call) : LocalBft × Disk × Option Release → Prop where
  | quiet {b' : LocalBft} (moves : b.Moves b') : Effect provider b disk io call (b', disk, none)
  | refused {r : Release} {step : VotingStep} {signer : DurableSigner} {journal : File}
      {anchor : Option File} {e : KeystoreError} (asks : b.Asks call r step)
      (signed : b.signRelease provider disk io r = (signer, journal, anchor, .error e)) :
      Effect provider b disk io call ({ b with signer }, ⟨journal, anchor⟩, none)
  | granted {r : Release} {step : VotingStep} {signer : DurableSigner} {journal : File}
      {anchor : Option File} {signature : Fixed 64} (asks : b.Asks call r step)
      (signed : b.signRelease provider disk io r = (signer, journal, anchor, .ok signature)) :
      Effect provider b disk io call
        ({ b with signer, locked := r.locked, step }, ⟨journal, anchor⟩, some (r.sign signature))

namespace LocalBft
variable {pr : Provider} {b : LocalBft}

lemma issue_effect (disk : Disk) (io : SignIo) {call : Call} {c : Choice} (h : b.Chosen call c) :
    b.Effect pr disk io call (releaseVote (b.issue pr disk io c.phase c.block c.locked)) := by
  unfold issue
  dsimp only
  split
  · rename_i signer journal anchor e hs
    exact .refused (.vote h) hs
  · rename_i signer journal anchor signature hs
    exact .granted (.vote h) hs

lemma issueChoice_effect (disk : Disk) (io : SignIo) {call : Call}
    {c : Except LocalBftError Choice} (h : b.choice pr call = some c) :
    b.Effect pr disk io call (releaseVote (b.issueChoice pr disk io c)) := by
  cases c with
  | error e => exact .quiet .stay
  | ok c => exact issue_effect disk io (choice_chosen h)

lemma propose_effect (disk : Disk) (io : SignIo) {call : Call} (expected : ValidatorId)
    (hdr : BlockHeader) (validRound : Option PrevoteCertificate) (validate : BlockHeader → Bool) :
    b.Effect pr disk io call
      (releaseProposal (b.propose pr disk io expected hdr validRound validate)) := by
  unfold propose
  split
  · exact .quiet .stay
  · rename_i proposal hc
    obtain ⟨_,hr,h⟩ := bind_eq_ok.mp hc
    obtain ⟨_,_,h⟩ := bind_eq_ok.mp h
    obtain ⟨_,_,h⟩ := bind_eq_ok.mp h
    cases h
    have hr := (ensure_eq_ok.mp hr).1
    split
    · rename_i signer journal anchor e hs
      exact .refused (.propose hr rfl rfl rfl) hs
    · rename_i signer journal anchor signature hs
      exact .granted (.propose hr rfl rfl rfl) hs

lemma call_effect (disk : Disk) (io : SignIo) (call : Call) :
    b.Effect pr disk io call (b.call pr disk io call) := by
  cases hc : b.choice pr call with
  | some c =>
    rw [call_choice disk io hc]
    exact issueChoice_effect disk io hc
  | none =>
    cases call with
    | propose expected hdr validRound validate =>
      exact propose_effect disk io expected hdr validRound validate
    | timeoutPrecommit round =>
      refine .quiet ?_
      unfold timeoutPrecommit
      split
      · exact .stay
      · rename_i h
        simp only [not_or,not_not] at h
        exact .advance h.2.1 h.2.2
    | finalize hdr cert validate =>
      refine .quiet ?_
      unfold finalize
      split
      · exact .stay
      · split
        · exact .finalize cert.block
        · exact .stay
    | prevote hdr validRound validate => cases hc
    | prevoteProposal expected proposal hdr validRound validate => cases hc
    | precommit hdr pf validate => cases hc
    | timeoutProposal round => cases hc
    | timeoutPrevote round => cases hc

end LocalBft
end Astrolune.Consensus
