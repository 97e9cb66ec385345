import Astrolune.Lib.Agreement
import Astrolune.Consensus.Crash
import Astrolune.Types.Digest

namespace Astrolune.Consensus
open Lib Codec Keystore List Function

def Vote.preimage (v : Vote) : Bytes :=
  domainInput (ascii "astrolune.vote.v1") v.signingBytes

def Signed.preimage : Signed → Bytes
  | .proposal p => domainInput (ascii "astrolune.proposal.v1") p.signingBytes
  | .vote v => v.preimage

def Committee.preimage (c : Committee) (chainId : UInt32) : Bytes :=
  domainInput (ascii "astrolune.committee.v1") (c.commitmentBytes chainId)

/-- One committee at one height: who is honest, which key each honest voter keeps, and the byte
strings on which the hash is collision free. -/
structure Setup where
  provider : Provider
  context : SigningContext
  committee : Committee
  publicKeys : List (Fixed 32)
  authenticated : AuthenticatedCommittee
  accepted : AuthenticatedCommittee.new provider.blake2s provider.toVerifier context.chainId
    committee publicKeys = .ok authenticated
  honest : ValidatorId → Bool
  seed : ValidatorId → Fixed 32
  owns : ∀ v, honest v = true → provider.blake2s (provider.ed25519PublicKey (seed v)).1 = v
  minority : ∑ v ∈ authenticated.members with ¬honest v = true, authenticated.power v <
    2 * quorumPower authenticated.total - authenticated.total
  hashed : Bytes → Prop
  collisionFree : ∀ x y, hashed x → hashed y → provider.blake2s x = provider.blake2s y → x = y
  committed : hashed (committee.preimage context.chainId)

/-- The nodes of the honest voters. Byzantine voters keep no state: whatever they sign appears
in the certificates that are presented. -/
abbrev System := ValidatorId → Node

namespace Setup
variable (u : Setup)

def step (s : System) (e : ValidatorId × NodeEvent) : System :=
  update s e.1
    ((s e.1).step u.provider u.context u.authenticated (u.seed e.1) e.2)

def Unforged (s : System) (a : AuthenticatedCommittee) (vote : Vote) : Prop :=
  u.honest vote.voter = true → a.Authentic u.provider.blake2s u.provider.toVerifier vote →
    ∃ r ∈ (s vote.voter).released,
      (r.decision u.provider.blake2s).message = vote.signingHash u.provider.blake2s

/-- A certificate built by `from_votes` in some context, which need not be this committee's. -/
structure Genuine (s : System) (proof : PrevoteCertificate) : Prop where
  built : ∃ chainId committee publicKeys a votes,
    AuthenticatedCommittee.new u.provider.blake2s u.provider.toVerifier chainId committee
      publicKeys = .ok a ∧
    PrevoteCertificate.fromVotes u.provider.blake2s u.provider.toVerifier a votes = .ok proof ∧
    u.hashed (committee.preimage chainId) ∧ ∀ vote ∈ proof.votes, u.Unforged s a vote
  hashed : ∀ vote ∈ proof.votes, u.hashed vote.preimage

/-- The environment's side of a step: only honest voters are driven, presented certificates hold
no forged signature, and a journal whose torn write is neither missing nor complete does not
pass its checksums. -/
def Allowed (s : System) (e : ValidatorId × NodeEvent) : Prop :=
  u.honest e.1 = true ∧
    match e.2 with
    | .boot _ => ∀ file ∈ (s e.1).journal, ∀ j, Opens u.provider.blake2s u.context
        (u.provider.ed25519PublicKey (u.seed e.1)) file.visible j → file.Whole file.visible
    | .call call io _ => (∀ proof, call.presents proof → u.Genuine s proof) ∧
        ∀ b ∈ (s e.1).bft, ∀ file ∈ (s e.1).journal,
          ∀ r ∈ (b.call u.provider ⟨file, (s e.1).anchor⟩ io call).2.2, u.hashed r.signed.preimage
    | _ => True

def Start (s : System) : Prop :=
  ∀ v, u.honest v = true → (s v).bft = none ∧ (s v).released = [] ∧
    ∀ file ∈ (s v).journal, ∃ content, file = .settled content ∧
      ∀ j, Opens u.provider.blake2s u.context (u.provider.ed25519PublicKey (u.seed v)) content j →
        ∀ d ∈ j.decision, d.position.height < u.authenticated.height

def Run (s : System) : Prop := Reachable u.step u.Allowed u.Start s

def Cast (s : System) (v : ValidatorId) (phase : VotePhase) (round : ℕ) (value : Hash256) : Prop :=
  ∃ r ∈ (s v).released, ∃ vote, r.signed = .vote vote ∧ vote.phase = phase ∧
    vote.round.toNat = round ∧ vote.block = some value

def voting (s : System) : Voting ValidatorId Hash256 where
  honest v := u.honest v = true
  quorum := u.authenticated.IsQuorum
  prevoted v := Cast s v .prevote
  precommitted v := Cast s v .precommit

/-- Every lock stands on a prevote quorum of an earlier round, or of this one when it is `late`. -/
def Backed (s : System) (locked : Option SigningLock) (round : UInt32) (late : Prop) : Prop :=
  ∀ lock ∈ locked, (u.voting s).Supported lock.round.toNat lock.block ∧
    (lock.round < round ∨ late ∧ lock.round = round)

def Justified (s : System) (d : Decision) : Prop :=
  d.position.height < u.authenticated.height ∨ ∃ safety, d.safety = some safety ∧
    u.Backed s safety.locked d.position.round (d.position.phase = precommitPhase)

structure Obeys (s : System) (r : Release) : Prop where
  height : (r.decision u.provider.blake2s).position.height = u.authenticated.height
  backed : u.Backed s r.locked (r.decision u.provider.blake2s).position.round
    ((r.decision u.provider.blake2s).position.phase = precommitPhase)
  prevote : ∀ vote, r.signed = .vote vote → vote.phase = .prevote → ∀ value ∈ vote.block,
    ∀ lock ∈ r.locked, lock.block = value ∨ ∃ mid, lock.round.toNat < mid ∧
      mid < vote.round.toNat ∧ (u.voting s).Supported mid value
  precommit : ∀ vote, r.signed = .vote vote → vote.phase = .precommit → ∀ value ∈ vote.block,
    r.locked = some ⟨vote.round, value⟩ ∧ (u.voting s).Supported vote.round.toNat value

/-- The invariant of one honest node. -/
structure Sound (s : System) (v : ValidatorId) : Prop where
  safe : ((s v).host u.provider).Safe u.provider.toCrypto u.context (u.seed v)
  obeys : ∀ r ∈ (s v).released, u.Obeys s r
  hashed : ∀ r ∈ (s v).released, u.hashed r.signed.preimage
  disk : ∀ file ∈ (s v).journal,
    Shows u.provider.toCrypto u.context (u.seed v) file (u.Justified s)
  committee : ∀ b ∈ (s v).bft, b.committee = u.authenticated
  lock : ∀ b ∈ (s v).bft, u.Backed s b.locked b.round
    (b.step = .precommitted ∨ b.step = .finalized)

variable {u} {s t : System} {v : ValidatorId}

def Grows (s t : System) : Prop := ∀ v, (s v).released ⊆ (t v).released

variable {value : Hash256} {vote : Vote} {a : AuthenticatedCommittee} {b : LocalBft}

lemma supported_mono (h : Grows s t) {round : ℕ}
    (hs : (u.voting s).Supported round value) : (u.voting t).Supported round value := by
  obtain ⟨quorum,hq,ha⟩ := hs
  refine ⟨quorum,hq,fun v hv hh => ?_⟩
  obtain ⟨r,hr,hc⟩ := ha v hv hh
  exact ⟨r,h v hr,hc⟩

variable {round : UInt32} {locked : Option SigningLock} {late : Prop} {r : Release}

lemma Backed.mono (h : Grows s t) (hb : u.Backed s locked round late) : u.Backed t locked round late :=
  fun lock hl => ⟨supported_mono h (hb lock hl).1,(hb lock hl).2⟩

lemma Backed.weaken (hb : u.Backed s locked round False) : u.Backed s locked round late :=
  fun lock hl => ⟨(hb lock hl).1,(hb lock hl).2.imp_right fun h => h.1.elim⟩

lemma Justified.mono (h : Grows s t) {d : Decision} (hj : u.Justified s d) : u.Justified t d := by
  rcases hj with hl | ⟨sf,hs,hb⟩
  · exact .inl hl
  · exact .inr ⟨sf,hs,hb.mono h⟩

lemma Obeys.mono (h : Grows s t) (ho : u.Obeys s r) : u.Obeys t r := by
  refine ⟨ho.height,ho.backed.mono h,fun vote hv hp value hva lock hl => ?_,
    fun vote hv hp value hva => ?_⟩
  · rcases ho.prevote vote hv hp value hva lock hl with hs | ⟨mid,hlo,hh,hm⟩
    · exact .inl hs
    · exact .inr ⟨mid,hlo,hh,supported_mono h hm⟩
  · obtain ⟨hloc,hsu⟩ := ho.precommit vote hv hp value hva
    exact ⟨hloc,supported_mono h hsu⟩

lemma release_is_vote (hr : u.hashed r.signed.preimage) (hv : u.hashed vote.preimage)
    (h : (r.decision u.provider.blake2s).message = vote.signingHash u.provider.blake2s) :
    ∃ w, r.signed = .vote w ∧ w = { vote with signature := w.signature } := by
  rcases r with ⟨p | w,locked⟩
  · have heq := u.collisionFree _ _ hr hv h
    exact absurd (domainInput_injective (by decide) (by decide) heq).1 (by decide)
  · have heq := (domainInput_injective (by decide) (by decide) (u.collisionFree _ _ hr hv h)).2
    exact ⟨w,rfl,Vote.signingBytes_injective heq⟩

lemma cast_of_authentic (hs : u.Sound s v) (hv : vote.voter = v) (hh : u.honest v = true)
    (ha : a.Authentic u.provider.blake2s u.provider.toVerifier vote) (hu : u.Unforged s a vote)
    (hha : u.hashed vote.preimage) (hva : vote.block = some value) :
    Cast s v vote.phase vote.round.toNat value := by
  subst hv
  obtain ⟨r,hr,hm⟩ := hu hh ha
  obtain ⟨w,hw,heq⟩ := release_is_vote (hs.hashed r hr) hha hm
  rw [heq] at hw
  exact ⟨r,hr,_,hw,rfl,rfl,hva⟩

lemma same_committee {chainId : UInt32} {c : Committee} {publicKeys : List (Fixed 32)}
    (h : AuthenticatedCommittee.new u.provider.blake2s u.provider.toVerifier chainId c publicKeys =
      .ok a) (hh : u.hashed (c.preimage chainId)) (hr : a.root = u.authenticated.root) :
    a.powers = u.authenticated.powers ∧ a.total = u.authenticated.total := by
  obtain ⟨hc,hs⟩ := AuthenticatedCommittee.new_ok h
  obtain ⟨hc',hs'⟩ := AuthenticatedCommittee.new_ok u.accepted
  rw [hs.root,hs'.root,hc,hc'] at hr
  have hb := (domainInput_injective (by decide) (by decide) (u.collisionFree _ _ hh u.committed hr)).2
  obtain ⟨_,rfl⟩ := Committee.commitmentBytes_injective hs.weighed hs'.weighed hs.count hs'.count hb
  exact ⟨hs.powers.trans hs'.powers.symm,hs.weighed.sum.trans hs'.weighed.sum.symm⟩

lemma Genuine.supported (ha : ∀ v, u.honest v = true → u.Sound s v)
    {pf : PrevoteCertificate} (hg : u.Genuine s pf)
    (hct : pf.verifyContext u.authenticated = .ok ()) :
    (u.voting s).Supported pf.round.toNat pf.block := by
  obtain ⟨chainId,c,publicKeys,a,votes,hn,hfr,hha,hu⟩ := hg.built
  obtain ⟨hq,hb,hvot⟩ := AuthenticatedCommittee.fromVotes_ok hfr
  have hf : pf.first ∈ pf.votes := head_mem pf.nonempty
  have hr : a.root = u.authenticated.root := (hvot _ hf).1.root.symm.trans (ensure_eq_ok.mp hct).2.2
  obtain ⟨hpo,ht⟩ := same_committee hn hha hr
  refine ⟨(pf.votes.map (·.voter)).toFinset,?_,fun v hv hh => ?_⟩
  · change u.authenticated.IsQuorum _
    simpa only [AuthenticatedCommittee.IsQuorum,AuthenticatedCommittee.members,
      AuthenticatedCommittee.quorum,AuthenticatedCommittee.power,
      AuthenticatedCommittee.votingPower,hpo,ht] using hq
  · obtain ⟨vote,hm,hvo⟩ := mem_map.mp (mem_toFinset.mp hv)
    obtain ⟨hau,hp,hro,hva⟩ := hvot vote hm
    have hc := cast_of_authentic (ha v hh) hvo hh hau (hu vote hm) (hg.hashed vote hm) hva
    rwa [hp,hro] at hc

lemma Backed.strict (hb : u.Backed s locked round late) (hn : ¬late) :
    u.Backed s locked round False :=
  fun lock hl => ⟨(hb lock hl).1,(hb lock hl).2.imp_right fun h => (hn h.1).elim⟩

lemma asks_obeys (hal : ∀ v, u.honest v = true → u.Sound s v) {call : Call}
    {step : VotingStep} (hg : ∀ pf, call.presents pf → u.Genuine s pf)
    (hc : b.committee = u.authenticated)
    (hloc : u.Backed s b.locked b.round (b.step = .precommitted ∨ b.step = .finalized))
    (h : b.Asks call r step) :
    u.Obeys s r ∧ u.Backed s r.locked b.round (step = .precommitted ∨ step = .finalized) := by
  have hac (pf : PrevoteCertificate) (ha : b.Accepts call pf) :
      (u.voting s).Supported pf.round.toNat pf.block :=
    (hg pf ha.presented).supported hal (hc ▸ ha.context)
  have hh : b.committee.height = u.authenticated.height := by rw [hc]
  cases h with
  | propose ready height round root =>
    have hst := hloc.strict (by simp [ready])
    refine ⟨⟨height.trans hh,?_,nofun,nofun⟩,hst.weaken⟩
    simp only [Release.decision,round]
    exact hst.weaken
  | vote chosen =>
    cases chosen with
    | prevote ready unlock =>
      have hst := hloc.strict (by rcases ready with h | h <;> simp [h])
      refine ⟨⟨hh,hst.weaken,?_,?_⟩,hst.weaken⟩
      · rintro vote ⟨⟩ - value hv lock hl
        rcases unlock value hv lock hl with hs | ⟨pf,ha,rfl,hlo,hhi⟩
        · exact .inl hs
        · exact .inr ⟨pf.round.toNat,hlo,hhi,hac pf ha⟩
      · rintro vote ⟨⟩ hp
        cases hp
    | pass ready =>
      have hst := hloc.strict (by simp [ready])
      refine ⟨⟨hh,hst.weaken,?_,?_⟩,hst.weaken⟩
      · rintro vote ⟨⟩ hp
        cases hp
      · rintro vote ⟨⟩ - value hv
        cases hv
    | @precommit pf ready accepted round =>
      have hsu := hac pf accepted
      rw [round] at hsu
      have hb (late : Prop) (hla : late) : u.Backed s (some ⟨b.round,pf.block⟩) b.round late := by
        rintro lock ⟨⟩
        exact ⟨hsu,.inr ⟨hla,rfl⟩⟩
      refine ⟨⟨hh,hb _ rfl,?_,?_⟩,hb _ (.inl rfl)⟩
      · rintro vote ⟨⟩ hp
        cases hp
      · rintro vote ⟨⟩ - value ⟨⟩
        exact ⟨rfl,hsu⟩

lemma Obeys.justified (h : u.Obeys s r) : u.Justified s (r.decision u.provider.blake2s) := by
  refine .inr ?_
  rcases r with ⟨p | vote,locked⟩
  · exact ⟨_,rfl,h.backed⟩
  · exact ⟨_,rfl,h.backed⟩

lemma Obeys.sign (h : u.Obeys s r) (sig : Fixed 64) : u.Obeys s (r.sign sig) := by
  refine ⟨by rw [r.decision_sign]; exact h.height,?_,?_,?_⟩
  · rw [r.decision_sign]
    rcases r with ⟨p | vote,locked⟩ <;> exact h.backed
  · rcases r with ⟨p | vote,locked⟩
    · nofun
    · rintro w ⟨⟩
      exact h.prevote vote rfl
  · rcases r with ⟨p | vote,locked⟩
    · nofun
    · rintro w ⟨⟩
      exact h.precommit vote rfl

lemma restored_backed {signer : DurableSigner} {step : VotingStep}
    (hj : ∀ d ∈ signer.journal.decision, u.Justified s d)
    (h : LocalBft.restored u.authenticated signer = .ok (round,step,locked)) :
    u.Backed s locked round (step = .precommitted ∨ step = .finalized) := by
  unfold LocalBft.restored at h
  split at h
  · cases h
    nofun
  · rename_i position message hla
    split at h
    · cases h
    · split at h
      · rename_i hhe
        obtain ⟨sf,hs,h⟩ := bind_eq_ok.mp h
        obtain ⟨_,_,h⟩ := bind_eq_ok.mp h
        obtain ⟨step',hst,h⟩ := bind_eq_ok.mp h
        cases h
        have hs := okOr_eq_ok.mp hs
        have hd : signer.journal.decision = some ⟨position,message,sf⟩ := by
          simp [Chain.decision,hla,hs]
        rcases hj _ hd with hlo | ⟨he,hh,hb⟩
        · rw [hhe] at hlo
          exact absurd hlo (UInt64.lt_irrefl _)
        · cases hh
          intro lock hl
          refine ⟨(hb lock hl).1,(hb lock hl).2.imp_right fun hlat => ⟨.inl ?_,hlat.2⟩⟩
          have hp : position.phase = precommitPhase := hlat.1
          rw [hp] at hst
          cases okOr_eq_ok.mp hst
          rfl
      · cases h
        nofun

lemma released_subset (u : Setup) (n : Node) (seed : Fixed 32) (e : NodeEvent) :
    n.released ⊆ (n.step u.provider u.context u.authenticated seed e).released := by
  cases e with
  | boot opening =>
    simp only [Node.step,Node.boot]
    split <;> exact fun _ hr => hr
  | call call io stopped =>
    simp only [Node.step,Node.makeCall]
    split
    · cases stopped
      · exact subset_append_right _ _
      · exact fun _ hr => hr
    · exact fun _ hr => hr
  | stop => exact fun _ hr => hr
  | powerLoss journalLeft anchorLeft => exact fun _ hr => hr

lemma grows_step (s : System) (e : ValidatorId × NodeEvent) : Grows s (u.step s e) := by
  intro w
  by_cases hw : w = e.1
  · subst hw
    rw [step,update_self]
    exact released_subset u _ _ _
  · rw [step,update_of_ne hw]
    exact fun _ hr => hr

lemma Sound.mono (h : u.Sound s v) (hg : Grows s t) (hs : t v = s v) : u.Sound t v := by
  refine ⟨by rw [hs]; exact h.safe,?_,?_,?_,?_,?_⟩
  · rw [hs]
    exact fun r hr => (h.obeys r hr).mono hg
  · rw [hs]
    exact h.hashed
  · rw [hs]
    exact fun file hf => (h.disk file hf).imp fun _ hj => hj.mono hg
  · rw [hs]
    exact h.committee
  · rw [hs]
    exact fun b hb => (h.lock b hb).mono hg

lemma Sound.boot (h : u.Sound s v) {opening : Event} (hg : Grows s t)
    (hnod : t v = (s v).boot u.provider u.context u.authenticated (u.seed v) opening)
    (hsa : ((t v).host u.provider).Safe u.provider.toCrypto u.context (u.seed v))
    (hwh : ∀ file ∈ (s v).journal, ∀ j, Opens u.provider.blake2s u.context
      (u.provider.ed25519PublicKey (u.seed v)) file.visible j → file.Whole file.visible) :
    u.Sound t v := by
  unfold Node.boot at hnod
  split at hnod
  · exact h.mono hg hnod
  rename_i hno
  obtain ⟨hi,ho⟩ : (s v).bft = none ∧ opensSigner opening = true := by
    simpa using hno
  have hl : ((s v).host u.provider).live = none := by simp [Node.host,hi]
  have hc := @opening_cases u.provider.toCrypto u.context (u.seed v) _ opening hl ho
  generalize ((s v).host u.provider).step u.provider.toCrypto u.context (u.seed v) opening = opened
    at hc hnod
  have hjo : (t v).journal = opened.journal := by rw [hnod]
  have hbf : ∀ b ∈ (t v).bft, ∃ signer ∈ opened.live,
      LocalBft.new u.authenticated signer u.context.genesis = .ok b := by
    intro b hb
    rw [hnod] at hb
    obtain ⟨signer,hs,hne⟩ := Option.bind_eq_some_iff.mp hb
    refine ⟨signer,hs,?_⟩
    cases hn : LocalBft.new u.authenticated signer u.context.genesis with
    | error e => simp [hn,Except.toOption] at hne
    | ok b' =>
      simp only [hn,Except.toOption,Option.some.injEq] at hne
      rw [hne]
  -- what the opened journal and its signer may resume from
  obtain ⟨hdi,hres⟩ : (∀ file ∈ opened.journal,
      Shows u.provider.toCrypto u.context (u.seed v) file (u.Justified s)) ∧
      ∀ signer ∈ opened.live, ∀ d ∈ signer.journal.decision, u.Justified s d := by
    cases hc with
    | refused journal live => exact ⟨journal ▸ h.disk,by simp [live]⟩
    | @opened old j pre opens journal live =>
      have hsh := h.disk old pre
      have hw := hwh old pre j opens
      refine ⟨fun file hf => ?_,fun signer hs d hd => ?_⟩
      · cases journal.symm.trans hf
        exact hsh.sync hw
      · rw [(live signer hs).1] at hd
        exact hsh _ hw j opens d hd
    | @created file pre journal empty live =>
      refine ⟨fun file' hf => ?_,fun signer hs d hd => ?_⟩
      · cases journal.symm.trans hf
        exact empty _
      · rw [(live signer hs).1] at hd
        cases hd
  refine ⟨hsa,?_,?_,fun file hf => ?_,fun b hb => ?_,fun b hb => ?_⟩
  · rw [hnod]
    exact fun r hr => (h.obeys r hr).mono hg
  · rw [hnod]
    exact h.hashed
  · exact (hdi file (hjo ▸ hf)).imp fun _ hj => hj.mono hg
  · obtain ⟨signer,_,hne⟩ := hbf b hb
    exact (LocalBft.new_ok hne).1
  · obtain ⟨signer,hs,hne⟩ := hbf b hb
    obtain ⟨_,_,_,hre⟩ := LocalBft.new_ok hne
    exact (restored_backed (hres signer hs) hre).mono hg

lemma moves_backed {b' : LocalBft} (h : b.Moves b')
    (hb : u.Backed s b.locked b.round (b.step = .precommitted ∨ b.step = .finalized)) :
    b'.committee = b.committee ∧
      u.Backed s b'.locked b'.round (b'.step = .precommitted ∨ b'.step = .finalized) := by
  cases h with
  | stay => exact ⟨rfl,hb⟩
  | advance ready room =>
    refine ⟨rfl,fun lock hl => ⟨(hb lock hl).1,.inl ?_⟩⟩
    have hle : lock.round.toNat ≤ b.round.toNat := by
      rcases (hb lock hl).2 with hlt | ⟨_,heq⟩
      · exact Nat.le_of_lt hlt
      · rw [heq]
    have hlt := b.round.toNat_lt
    have hn : (b.round + 1).toNat = b.round.toNat + 1 := by
      rw [UInt32.toNat_add]
      exact Nat.mod_eq_of_lt (by simp only [UInt32.toNat_one]; omega)
    rw [UInt32.lt_iff_toNat_lt,hn]
    omega
  | finalize block =>
    exact ⟨rfl,fun lock hl => ⟨(hb lock hl).1,(hb lock hl).2.imp_right fun h => ⟨.inr rfl,h.2⟩⟩⟩

lemma Sound.call (ha : ∀ v, u.honest v = true → u.Sound s v) (h : u.Sound s v) {call : Call}
    {io : SignIo} {stopped : Bool} (hg : Grows s t)
    (hn : t v = (s v).makeCall u.provider call io stopped)
    (hs : ((t v).host u.provider).Safe u.provider.toCrypto u.context (u.seed v))
    (hge : ∀ pf, call.presents pf → u.Genuine s pf)
    (hh : ∀ b ∈ (s v).bft, ∀ file ∈ (s v).journal,
      ∀ r ∈ (b.call u.provider ⟨file,(s v).anchor⟩ io call).2.2, u.hashed r.signed.preimage) :
    u.Sound t v := by
  unfold Node.makeCall at hn
  split at hn
  · rename_i b file hbf hfi
    have hco := h.committee b hbf
    have hlo := h.lock b hbf
    obtain ⟨file₀,hfile₀,hli⟩ := h.safe.live b.signer (by simp [Node.host,hbf])
    obtain rfl : file = file₀ := Option.some.inj (hfi.symm.trans hfile₀)
    have he := @LocalBft.call_effect u.provider b ⟨file,(s v).anchor⟩ io call
    have hh := hh b hbf file hfi
    generalize b.call u.provider ⟨file,(s v).anchor⟩ io call = outcome at he hh hn
    -- the file, the machine and the release after the call, still in terms of the old system
    obtain ⟨hd,⟨hc',hl'⟩,hre⟩ :
        Shows u.provider.toCrypto u.context (u.seed v) outcome.2.1.journal (u.Justified s) ∧
        (outcome.1.committee = u.authenticated ∧ u.Backed s outcome.1.locked outcome.1.round
          (outcome.1.step = .precommitted ∨ outcome.1.step = .finalized)) ∧
        ∀ r ∈ outcome.2.2, u.Obeys s r := by
      have hsh := h.disk file hfi
      cases he with
      | quiet moves =>
        obtain ⟨hc,hl⟩ := moves_backed moves hlo
        exact ⟨hsh,⟨hc.trans hco,hl⟩,by simp⟩
      | refused asks signed =>
        obtain ⟨ho,_⟩ := asks_obeys ha hge hco hlo asks
        exact ⟨hsh.sign hli ho.justified signed,⟨hco,hlo⟩,by simp⟩
      | @granted r step signer journal anchor sig asks signed =>
        obtain ⟨ho,hb⟩ := asks_obeys ha hge hco hlo asks
        refine ⟨hsh.sign hli ho.justified signed,⟨hco,hb⟩,?_⟩
        rintro _ ⟨⟩
        exact ho.sign sig
    have hi : ∀ r ∈ (t v).released, r ∈ outcome.2.2 ∨ r ∈ (s v).released := by
      intro r hr
      rw [hn] at hr
      cases stopped with
      | true => exact .inr hr
      | false => exact (mem_append.mp hr).imp_left fun hm => by simpa using hm
    have hb' : ∀ b' ∈ (t v).bft, b' = outcome.1 := by
      intro b' hb'
      rw [hn] at hb'
      cases stopped with
      | true => cases hb'
      | false => exact (Option.some.inj hb').symm
    refine ⟨hs,fun r hr => ?_,fun r hr => ?_,fun file' hf => ?_,fun b' hm => ?_, fun b' hm => ?_⟩
    · exact ((hi r hr).elim (hre r) (h.obeys r)).mono hg
    · exact (hi r hr).elim (hh r) (h.hashed r)
    · rw [hn] at hf
      cases hf
      exact hd.imp fun _ hj => hj.mono hg
    · rw [hb' b' hm]
      exact hc'
    · rw [hb' b' hm]
      exact hl'.mono hg
  · exact h.mono hg hn

lemma sound_step (hal : ∀ v, u.honest v = true → u.Sound s v) {e : ValidatorId × NodeEvent}
    (ha : u.Allowed s e) : ∀ v, u.honest v = true → u.Sound (u.step s e) v := by
  obtain ⟨v,e⟩ := e
  have hg : Grows s (u.step s (v,e)) := grows_step s (v,e)
  obtain ⟨hv,ha⟩ := ha
  intro w hw
  by_cases hwv : w = v
  · subst hwv
    have h := hal w hw
    have hn : u.step s (w,e) w =
        (s w).step u.provider u.context u.authenticated (u.seed w) e := update_self ..
    have hs : ((u.step s (w,e) w).host u.provider).Safe u.provider.toCrypto u.context
        (u.seed w) := by
      rw [hn]
      exact Node.step_safe e h.safe
    cases e with
    | boot opening => exact h.boot hg hn hs ha
    | call call io stopped => exact Sound.call hal h hg hn hs ha.1 ha.2
    | stop =>
      refine ⟨hs,?_,?_,?_,by simp [hn,Node.step],by simp [hn,Node.step]⟩
      · rw [hn]
        exact fun r hr => (h.obeys r hr).mono hg
      · rw [hn]
        exact h.hashed
      · rw [hn]
        exact fun file hf => (h.disk file hf).imp fun _ hj => hj.mono hg
    | powerLoss journalLeft anchorLeft =>
      refine ⟨hs,?_,?_,?_,by simp [hn,Node.step],by simp [hn,Node.step]⟩
      · rw [hn]
        exact fun r hr => (h.obeys r hr).mono hg
      · rw [hn]
        exact h.hashed
      · rw [hn]
        intro file hf
        obtain ⟨old,ho,rfl⟩ := Option.map_eq_some_iff.mp hf
        exact ((h.disk old ho).imp fun _ hj => hj.mono hg).lose journalLeft
  · exact (hal w hw).mono hg (update_of_ne hwv ..)

lemma start_sound (h : u.Start s) (hv : u.honest v = true) : u.Sound s v := by
  obtain ⟨hi,hn,hjo⟩ := h v hv
  refine ⟨⟨by simp [Node.host,hn],by simp [Node.host,hn],by simp [Node.host,hn],
    by simp [Node.host,hi]⟩,by simp [hn],by simp [hn],?_,by simp [hi],
    by simp [hi]⟩
  intro file hf
  obtain ⟨ct,rfl,hl⟩ := hjo file hf
  intro read hr j hj d hd
  rw [File.whole_settled hr] at hj
  exact .inl (hl j hj d hd)

lemma run_sound (h : u.Run s) : ∀ v, u.honest v = true → u.Sound s v :=
  h.invariant (fun _ hs _ hv => start_sound hs hv) fun _ _ ha hal => sound_step hal ha

lemma Sound.decision_mem (hr : r ∈ (s v).released) :
    r.decision u.provider.blake2s ∈ ((s v).host u.provider).released :=
  mem_map_of_mem hr

lemma Sound.extends (h : u.Sound s v) {a b : Release} (ha : a ∈ (s v).released)
    (hb : b ∈ (s v).released)
    (hl : (a.decision u.provider.blake2s).position < (b.decision u.provider.blake2s).position) :
    (a.decision u.provider.blake2s).Extends (b.decision u.provider.blake2s) := by
  have hs : Std.Symm fun x y : Decision => x.Extends y ∨ y.Extends x := ⟨fun _ _ => Or.symm⟩
  have hc := (h.safe.chain.imp fun {x y} hx => (Or.inr hx : x.Extends y ∨ y.Extends x))
  have hal := hc.forall_of_forall fun x _ => .inl (.inl rfl)
  rcases hal (Sound.decision_mem ha) (Sound.decision_mem hb) with hab | hba
  · exact hab
  · rcases hba.later with hbac | ⟨heq,_⟩
    · exact absurd hl hbac.not_gt
    · exact absurd heq.symm hl.ne

/-- One prevote a round: the journal gives one digest a position. -/
lemma Sound.prevote_unique (h : u.Sound s v) {round : ℕ} {a b : Hash256}
    (ha : Cast s v .prevote round a) (hb : Cast s v .prevote round b) : a = b := by
  obtain ⟨r,hr,⟨_,_,_,_,_,_,_,_⟩,hv,rfl,rfl,rfl⟩ := ha
  obtain ⟨r',hr',vote',hv',hp',hro',hb'⟩ := hb
  have hhe := (h.obeys r hr).height.trans (h.obeys r' hr').height.symm
  have hh := h.hashed r hr
  have hh' := h.hashed r' hr'
  have hf := (noEquivocation_of_chain (pairwise_reverse.mpr h.safe.chain)).digest
    _ (mem_reverse.mpr (Sound.decision_mem hr)) _
    (mem_reverse.mpr (Sound.decision_mem hr'))
  simp only [Release.decision,hv,hv',hp'] at hhe hf
  rw [hv] at hh
  rw [hv'] at hh'
  have hp : (vote'.round : UInt32) = _ := UInt32.toNat_inj.mp hro'
  have hm := hf (by rw [SigningPosition.mk.injEq]; exact ⟨hhe,hp.symm,rfl⟩)
  have hby := (domainInput_injective (by decide) (by decide) (u.collisionFree _ _ hh hh' hm)).2
  have hvo := Vote.signingBytes_injective hby
  have hs := congrArg Vote.block hvo
  rw [hb'] at hs
  exact Option.some.inj hs

lemma locking (hal : ∀ v, u.honest v = true → u.Sound s v) : (u.voting s).Locking := by
  refine ⟨fun a b ha hb => ?_,fun v hv round a b ha hb => (hal v hv).prevote_unique ha hb,
    fun v hv round a ha => ?_,fun v hv round a ha round' b hb hlt hn => ?_⟩
  · have hse := (AuthenticatedCommittee.new_ok u.accepted).2
    have hli : ∑ v ∈ u.authenticated.members with ¬u.honest v = true, u.authenticated.power v <
        2 * u.authenticated.quorum - ∑ v ∈ u.authenticated.members, u.authenticated.power v := by
      rw [hse.members_power]
      exact u.minority
    change ∃ v ∈ a, v ∈ b ∧ u.honest v = true
    exact quorums_share_honest ha.1 hb.1 ha.2 hb.2 hli
  · obtain ⟨r,hr,vote,hvo,hp,rfl,hbl⟩ := ha
    exact ((hal v hv).obeys r hr).precommit vote hvo hp a hbl |>.2
  · have h := hal v hv
    obtain ⟨r,hr,vote,hvo,hp,rfl,hbl⟩ := ha
    obtain ⟨r',hr',vote',hv',hp',rfl,hb'⟩ := hb
    obtain ⟨hloc,_⟩ := (h.obeys r hr).precommit vote hvo hp a hbl
    have hh := (h.obeys r hr).height.trans (h.obeys r' hr').height.symm
    have hba := (h.obeys r' hr').backed
    have hex := h.extends hr hr'
    simp only [Release.decision,hvo,hv',hloc,hp,hp'] at hh hba hex
    have hpo : vote.round < vote'.round := hlt
    -- the later prevote still carries the lock, or a newer one
    obtain ⟨next,hnex,hf⟩ := (hex (SigningPosition.lt_iff.mpr (.inr ⟨hh,.inl hpo⟩))).follows hh _ rfl
    cases hnex
    obtain ⟨lock,hlock,hk⟩ := hf.lock _ rfl
    have hle : vote.round.toNat ≤ lock.round.toNat := by
      rcases hk with hne | rfl
      · exact Nat.le_of_lt hne
      · exact Nat.le_refl _
    rcases (h.obeys r' hr').prevote vote' hv' hp' b hb' lock hlock with
      hs | ⟨mid,hlo,hhi,hm⟩
    · obtain ⟨hsu,hro⟩ := hba lock hlock
      have hne : vote.round < lock.round := by
        rcases hk with hne | rfl
        · exact hne
        · exact absurd hs.symm hn
      have he : lock.round < vote'.round := by
        rcases hro with hlt | ⟨hl,_⟩
        · exact hlt
        · exact absurd hl (by decide)
      exact ⟨lock.round.toNat,hne,he,hs ▸ hsu⟩
    · exact ⟨mid,Nat.lt_of_le_of_lt hle hlo,hhi,hm⟩

structure Final (u : Setup) (s : System) (c : FinalityCertificate) (header : BlockHeader) :
    Prop where
  verified : u.authenticated.verifyCertificate u.provider.blake2s u.provider.toVerifier c header =
    .ok ()
  unforged : ∀ entry ∈ c.signatures, u.Unforged s u.authenticated (c.vote entry)
  hashed : ∀ entry ∈ c.signatures, u.hashed (c.vote entry).preimage

lemma Final.decided (ha : ∀ v, u.honest v = true → u.Sound s v) {c : FinalityCertificate}
    {hdr : BlockHeader} (h : Final u s c hdr) :
    (u.voting s).Decided c.round.toNat c.block := by
  obtain ⟨hq,hau⟩ := AuthenticatedCommittee.verifyCertificate_ok h.verified
  refine ⟨(c.signatures.map CertificateSignature.voter).toFinset,hq,fun v hv hh => ?_⟩
  obtain ⟨en,he,rfl⟩ := mem_map.mp (mem_toFinset.mp hv)
  exact cast_of_authentic (ha en.voter hh) rfl hh (hau en he) (h.unforged en he)
    (h.hashed en he) rfl

end Setup

/-- In every run of honest voters against any minority of Byzantine power, with any failed
signing call and any crash, two finality certificates that verify are for one block. -/
theorem bft_agreement (u : Setup) (s : System) (hrun : u.Run s) (c c' : FinalityCertificate)
    (header header' : BlockHeader) (h : Setup.Final u s c header)
    (h' : Setup.Final u s c' header') : c.block = c'.block := by
  have ha := Setup.run_sound hrun
  exact (Setup.locking ha).agreement (h.decided ha) (h'.decided ha)

namespace Sample

def provider : Provider where
  blake2s := residueHash
  ed25519PublicKey seed := seed
  ed25519Sign _ _ := Fixed.fill 64 0
  ed25519Verify _ _ _ := true
  strongKey _ := true

def key (n : UInt8) : Fixed 32 := Fixed.fill 32 n
def voter (n : UInt8) : ValidatorId := residueHash (key n).1
def seats : List UInt8 := [1, 2, 3, 4]
def signers : List UInt8 := [1, 2, 4]
def committee : Committee := ⟨1, seats.map fun n => ⟨voter n, 1⟩⟩
def root : Hash256 := residueHash (committee.preimage 7)
def authenticated : AuthenticatedCommittee :=
  ⟨7, 1, root, 4, seats.map fun n => (voter n, 1), seats.map voter,
    seats.reverse.map fun n => (voter n, key n)⟩
def header : BlockHeader := ⟨1, key 9, key 9, key 9, key 9, root, ⟨0, 0, 0, 0⟩⟩
def block : Hash256 := header.computeHash residueHash
def zeroes : Fixed 64 := Fixed.fill 64 0
def vote (phase : VotePhase) (round : UInt32) (n : UInt8) : Vote :=
  ⟨7, root, 1, round, phase, some block, voter n, zeroes⟩
def proof (round : UInt32) : PrevoteCertificate :=
  ⟨signers.map (vote .prevote round), by simp [signers]⟩
def certificate (round : UInt32) : FinalityCertificate :=
  ⟨7, 1, round, root, block, signers.map fun n => ⟨voter n, zeroes⟩⟩
def preimages : List Bytes :=
  committee.preimage 7 :: [0, 1].flatMap fun round => signers.flatMap fun n =>
    [(vote .prevote round n).preimage, (vote .precommit round n).preimage]

/-- Four seats. The first three are honest. -/
def setup : Setup where
  provider := provider
  context := ⟨7, key 9⟩
  committee := committee
  publicKeys := seats.map key
  authenticated := authenticated
  accepted := by decide +kernel
  honest v := decide (v ∈ [voter 1, voter 2, voter 3])
  seed v := ((seats.map key).find? (residueHash ·.1 = v)).getD (key 0)
  owns := by
    have h : ∀ v ∈ [voter 1,voter 2,voter 3],
        residueHash (((seats.map key).find? (residueHash ·.1 = v)).getD (key 0)).1 = v := by
      decide +kernel
    exact fun v hv => h v (of_decide_eq_true hv)
  minority := by decide +kernel
  hashed x := x ∈ preimages
  collisionFree := by
    have h : ∀ x ∈ preimages, ∀ y ∈ preimages, residueHash x = residueHash y → x = y := by
      decide +kernel
    exact fun x y hx hy => h x hx y hy
  committed := mem_cons_self

def io : SignIo := ⟨⟨true, .done, .done⟩, .done⟩

def call (c : Call) (n : UInt8) : ValidatorId × NodeEvent := (voter n, .call c io false)

def voting (round : UInt32) : List (ValidatorId × NodeEvent) :=
  [1, 2].map (call (.prevote (some header) none fun _ => true)) ++
    [1, 2].map (call (.precommit header (proof round) fun _ => true))

/-- The first two seats vote, the first one loses its power and starts again, and both vote in the
next round. The fourth seat signs what it is asked for. -/
def events : List (ValidatorId × NodeEvent) :=
  [1, 2].map (fun n => (voter n, .boot (.create true .done))) ++ voting 0 ++
    [(voter 1, .powerLoss [] []), (voter 1, .boot (.openSigner true))] ++
    [1, 2].map (call (.timeoutPrecommit 0)) ++ voting 1

def idle : System := fun _ => ⟨none, none, none, []⟩

def genuineVote (s : System) (v : Vote) : Bool :=
  decide (v.preimage ∈ preimages) && (!setup.honest v.voter || (s v.voter).released.any fun r =>
    (r.decision residueHash).message = v.signingHash residueHash)

def genuine (s : System) : Call → Bool
  | .precommit _ proof _ =>
    decide (PrevoteCertificate.fromVotes residueHash provider.toVerifier authenticated proof.votes =
      .ok proof) && proof.votes.all (genuineVote s)
  | .prevote _ none _ | .timeoutPrecommit _ => true
  | _ => false

def allowed (s : System) (e : ValidatorId × NodeEvent) : Bool :=
  setup.honest e.1 && match e.2 with
    | .boot _ => (s e.1).journal.all fun file => file.visible = file.synced
    | .call call io _ => genuine s call && (s e.1).bft.all fun b => (s e.1).journal.all fun file =>
        (b.call provider ⟨file, (s e.1).anchor⟩ io call).2.2.all fun r =>
          r.signed.preimage ∈ preimages
    | _ => true

def allowedAll : System → List (ValidatorId × NodeEvent) → Bool
  | _, [] => true
  | s, e :: rest => allowed s e && allowedAll (setup.step s e) rest

variable {s : System}

lemma of_genuineVote {v : Vote} (h : genuineVote s v = true) :
    v.preimage ∈ preimages ∧ ∀ a, setup.Unforged s a v := by
  obtain ⟨hp,hr⟩ := Bool.and_eq_true_iff.mp h
  refine ⟨of_decide_eq_true hp,fun a hv _ => ?_⟩
  rw [hv] at hr
  obtain ⟨r,hm,hd⟩ := any_eq_true.mp hr
  exact ⟨r,hm,of_decide_eq_true hd⟩

lemma genuine_of {c : Call} (h : genuine s c = true) (pf : PrevoteCertificate)
    (hp : c.presents pf) : setup.Genuine s pf := by
  cases c with
  | precommit hdr given validate =>
    cases hp
    obtain ⟨hb,hv⟩ := Bool.and_eq_true_iff.mp h
    have hv := fun v hm => of_genuineVote (all_eq_true.mp hv v hm)
    exact ⟨⟨7,committee,_,authenticated,pf.votes,setup.accepted,of_decide_eq_true hb,
      setup.committed,fun v hm => (hv v hm).2 _⟩,fun v hm => (hv v hm).1⟩
  | prevote hdr valid validate =>
    cases valid with
    | none => cases hp
    | some given => cases h
  | timeoutPrecommit round => cases hp
  | _ => cases h

lemma allowed_of {e : ValidatorId × NodeEvent} (h : allowed s e = true) : setup.Allowed s e := by
  obtain ⟨v,ev⟩ := e
  obtain ⟨hh,h⟩ := Bool.and_eq_true_iff.mp h
  refine ⟨hh,?_⟩
  cases ev with
  | boot opening =>
    exact fun file hf _ _ => .inl (of_decide_eq_true ((Option.all_eq_true _ _).mp h file hf))
  | call c io stopped =>
    obtain ⟨hg,h⟩ := Bool.and_eq_true_iff.mp h
    refine ⟨genuine_of hg,fun b hb file hf r hr => ?_⟩
    have hb := (Option.all_eq_true _ _).mp h b hb
    have hf := (Option.all_eq_true _ _).mp hb file hf
    have hm : r.signed.preimage ∈ preimages := of_decide_eq_true ((Option.all_eq_true _ _).mp hf r hr)
    exact hm
  | stop => trivial
  | powerLoss left left' => trivial

lemma run_of {l : List (ValidatorId × NodeEvent)} (hr : setup.Run s) (h : allowedAll s l = true) :
    setup.Run (l.foldl setup.step s) := by
  induction l generalizing s with
  | nil => exact hr
  | cons e l ih =>
    obtain ⟨he,hl⟩ := Bool.and_eq_true_iff.mp h
    exact ih (.step hr (allowed_of he)) hl

def voted : System := events.foldl setup.step idle

lemma run : setup.Run voted :=
  run_of (.start fun v _ => ⟨rfl,rfl,by simp [idle]⟩) (by decide +kernel)

lemma final {round : UInt32} (h : round ∈ [0,1]) :
    Setup.Final setup voted (certificate round) header := by
  have ha : [0,1].all (fun round => authenticated.verifyCertificate residueHash provider.toVerifier
      (certificate round) header = .ok () ∧ ∀ en ∈ (certificate round).signatures,
        genuineVote voted ((certificate round).vote en) = true) = true := by decide +kernel
  obtain ⟨hv,hg⟩ := of_decide_eq_true (all_eq_true.mp ha round h)
  exact ⟨hv,fun en he => (of_genuineVote (hg en he)).2 _,fun en he => (of_genuineVote (hg en he)).1⟩

end Sample

open Sample in
/-- Two rounds with a crash between them, in which a block becomes final twice with the signature
of a Byzantine seat. -/
theorem bft_agreement_two_rounds : setup.Run voted ∧
    Setup.Final setup voted (certificate 0) header ∧ Setup.Final setup voted (certificate 1) header ∧
    setup.honest (voter 4) = false ∧ (certificate 0).block = (certificate 1).block :=
  ⟨run,final (by simp),final (by simp),by decide +kernel,bft_agreement setup voted run
    (certificate 0) (certificate 1) header header (final (by simp)) (final (by simp))⟩

end Astrolune.Consensus
