import Astrolune.Keystore.Equivocation
import Astrolune.Consensus.Local

namespace Astrolune.Consensus
open Lib Codec Keystore

inductive Signed where
  | proposal (p : Proposal)
  | vote (v : Vote)

structure Release where
  signed : Signed
  locked : Option SigningLock

def Release.decision (H : Hasher) (r : Release) : Decision :=
  match r.signed with
  | .proposal p =>
    ⟨⟨p.height, p.round, proposalPhase⟩, p.signingHash H, some ⟨p.committeeRoot, r.locked⟩⟩
  | .vote v =>
    ⟨⟨v.height, v.round, v.phase.position⟩, v.signingHash H, some ⟨v.committeeRoot, r.locked⟩⟩

/-- The public calls of `LocalBft` with all their arguments. -/
inductive Call where
  | propose (expected : ValidatorId) (header : BlockHeader)
      (validRound : Option PrevoteCertificate) (validate : BlockHeader → Bool)
  | prevote (header : Option BlockHeader) (validRound : Option PrevoteCertificate)
      (validate : BlockHeader → Bool)
  | prevoteProposal (expected : ValidatorId) (proposal : Proposal) (header : BlockHeader)
      (validRound : Option PrevoteCertificate) (validate : BlockHeader → Bool)
  | precommit (header : BlockHeader) (proof : PrevoteCertificate) (validate : BlockHeader → Bool)
  | timeoutProposal (round : UInt32)
  | timeoutPrevote (round : UInt32)
  | timeoutPrecommit (round : UInt32)
  | finalize (header : BlockHeader) (certificate : FinalityCertificate)
      (validate : BlockHeader → Bool)

def releaseVote : LocalBft × Disk × Except LocalBftError Vote → LocalBft × Disk × Option Release
  | (b, disk, .ok vote) => (b, disk, some ⟨.vote vote, b.locked⟩)
  | (b, disk, .error _) => (b, disk, none)

def releaseProposal :
    LocalBft × Disk × Except LocalBftError Proposal → LocalBft × Disk × Option Release
  | (b, disk, .ok proposal) => (b, disk, some ⟨.proposal proposal, b.locked⟩)
  | (b, disk, .error _) => (b, disk, none)

def LocalBft.call (provider : Provider) (b : LocalBft) (disk : Disk) (io : SignIo) :
    Call → LocalBft × Disk × Option Release
  | .propose expected header validRound validate =>
    releaseProposal (b.propose provider disk io expected header validRound validate)
  | .prevote header validRound validate =>
    releaseVote (b.prevote provider disk io header validRound validate)
  | .prevoteProposal expected proposal header validRound validate =>
    releaseVote (b.prevoteProposal provider disk io expected proposal header validRound validate)
  | .precommit header proof validate =>
    releaseVote (b.precommit provider disk io header proof validate)
  | .timeoutProposal round => releaseVote (b.timeoutProposal provider disk io round)
  | .timeoutPrevote round => releaseVote (b.timeoutPrevote provider disk io round)
  | .timeoutPrecommit round => ((b.timeoutPrecommit round).1, disk, none)
  | .finalize header certificate validate =>
    ((b.finalize provider header certificate validate).1, disk, none)

structure Node where
  journal : Option File
  anchor : Option File
  bft : Option LocalBft
  released : List Release

inductive NodeEvent where
  /-- Opening the signer by one of its constructors, then `LocalBft::new`. -/
  | boot (opening : Event)
  /-- A call; `stopped` when the process ends before its result leaves it. -/
  | call (call : Call) (io : SignIo) (stopped : Bool)
  | stop
  | powerLoss (journalLeft anchorLeft : Bytes)

def opensSigner : Event → Bool
  | .create .. | .openSigner _ | .createAnchor .. | .openWithAnchor .. => true
  | _ => false

namespace Node
variable (provider : Provider) (context : SigningContext) (committee : AuthenticatedCommittee)
  (seed : Fixed 32)

def host (n : Node) : Host :=
  ⟨n.journal, n.anchor, n.bft.map (·.signer), n.released.map (·.decision provider.blake2s)⟩

/-- A failed `LocalBft::new` drops the signer it was given. -/
def boot (n : Node) (opening : Event) : Node :=
  if n.bft.isSome ∨ opensSigner opening = false then n
  else
    let opened := (n.host provider).step provider.toCrypto context seed opening
    let bft := opened.live.bind fun signer =>
      (LocalBft.new committee signer context.genesis).toOption
    { n with journal := opened.journal, anchor := opened.anchor, bft }

def makeCall (n : Node) (call : Call) (io : SignIo) (stopped : Bool) : Node :=
  match n.bft, n.journal with
  | some b, some file =>
    match b.call provider ⟨file, n.anchor⟩ io call with
    | (b, disk, release) =>
      { journal := some disk.journal
        anchor := disk.anchor
        bft := if stopped then none else some b
        released := if stopped then n.released else release.toList ++ n.released }
  | _, _ => n

def step (n : Node) : NodeEvent → Node
  | .boot opening => n.boot provider context committee seed opening
  | .call call io stopped => n.makeCall provider call io stopped
  | .stop => { n with bft := none }
  | .powerLoss journalLeft anchorLeft =>
    { n with
      journal := n.journal.map (·.lose journalLeft)
      anchor := n.anchor.map (·.lose anchorLeft)
      bft := none }

end Node
end Astrolune.Consensus
