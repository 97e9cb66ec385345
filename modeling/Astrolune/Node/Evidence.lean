import Astrolune.Consensus.Nested
import Astrolune.Consensus.Permanence
import Astrolune.Lib.FileSystem

namespace Astrolune.Node
open Lib Codec Crypto Consensus List Function

/-- The `equivocation` directory: whether it is there, and what the file of each voter holds. -/
structure Outbox where
  present : Bool
  files : ValidatorId → Option Bytes

namespace Outbox

variable {α : Type}

def query (f : Outbox → Except Fault α) : Io Outbox Fault α := Io.call fun turn d =>
  match turn with
  | .done => (.ofExcept (f d), d)
  | .failed _ _ => (.error .other, d)
  | .stopped _ _ => (.stopped, d)

/-- A call that changes the directory. `f` is given the number of bytes after which it was cut. -/
def perform (f : Option Nat → Outbox → Except Fault Outbox) : Io Outbox Fault Unit :=
  let cut applied written d := if applied then (f (some written) d).toOption.getD d else d
  Io.call fun turn d =>
    match turn with
    | .done =>
      match f none d with
      | .ok d' => (.ok (), d')
      | .error e => (.error e, d)
    | .failed applied written => (.error .other, cut applied written d)
    | .stopped applied written => (.stopped, cut applied written d)

-- A name that is not found is an answer, as the callers take it; every other fault is an error.
def plainDirectory : Io Outbox Fault Bool := query fun d => .ok d.present

def createDir : Io Outbox Fault Unit := perform fun _ d =>
  if d.present then .error .alreadyExists else .ok { d with present := true }

/-- `sync_all` on a file or a directory; what a stopped process has written is there either way. -/
def sync : Io Outbox Fault Unit := query fun _ => .ok ()

def metadata (id : ValidatorId) : Io Outbox Fault Bool := query fun d => .ok (d.files id).isSome

def readFile (id : ValidatorId) (limit : Nat) : Io Outbox Fault Bytes := query fun d =>
  match d.files id with
  | none => .error .notFound
  | some bytes => .ok (bytes.take limit)

def set (id : ValidatorId) (bytes : Bytes) (d : Outbox) : Outbox :=
  { d with files := update d.files id (some bytes) }

def createNew (id : ValidatorId) : Io Outbox Fault Unit := perform fun _ d =>
  if d.files id = none then .ok (d.set id []) else .error .alreadyExists

def writeAll (id : ValidatorId) (bytes : Bytes) : Io Outbox Fault Unit := perform fun limit d =>
  .ok (d.set id (bytes.take (limit.getD bytes.length)))

section Rules

variable {ε β : Type} {T : Turn → Prop} {d : Outbox} {e : ε} {Q : Post Outbox ε β}

lemma ask {f : Outbox → Except Fault α} {k : α → Io Outbox ε β} (hfa : CanFail T → Q.error e d)
    (hs : CanStop T → Q.stopped d) (he : ∀ why, f d = .error why → Q.error e d)
    (ho : ∀ a, f d = .ok a → Meets T (k a) d Q) : Meets T ((query f).failingAs e >>= k) d Q := by
  refine Meets.bind (R := fun a d' => f d = .ok a ∧ d' = d) (Meets.failingAs (Meets.call ?_ ?_ ?_)) ?_
  · change Post.Holds _ (Ended.ofExcept (f d),d)
    cases hf : f d with
    | ok a => exact ⟨rfl,rfl⟩
    | error why => exact he why hf
  · exact fun _ _ h => hfa ⟨_,_,h⟩
  · exact fun _ _ h => hs ⟨_,_,h⟩
  · rintro a _ ⟨ha,rfl⟩
    exact ho a ha

/-- A call that changes the directory, with `J` for what it leaves behind when it is cut. -/
lemma act {f : Option Nat → Outbox → Except Fault Outbox} {k : Unit → Io Outbox ε β}
    {J : Outbox → Prop} (hd : J d) (hc : ∀ n d', f (some n) d = .ok d' → J d')
    (hfa : CanFail T → ∀ d', J d' → Q.error e d') (hs : CanStop T → ∀ d', J d' → Q.stopped d')
    (he : ∀ why, f none d = .error why → Q.error e d)
    (ho : ∀ d', f none d = .ok d' → Meets T (k ()) d' Q) :
    Meets T ((perform f).failingAs e >>= k) d Q := by
  have hl : ∀ (applied : Bool) n, J (if applied then (f (some n) d).toOption.getD d else d) := by
    intro applied n
    cases applied with
    | false => exact hd
    | true =>
      cases hf : f (some n) d with
      | ok d' => exact hc n d' hf
      | error why => exact hd
  refine Meets.bind (R := fun _ d' => f none d = .ok d') (Meets.failingAs (Meets.call ?_ ?_ ?_)) ?_
  · change Post.Holds _ (match f none d with | .ok d' => (.ok (),d') | .error e => (.error e,d))
    split
    · next d' h => exact h
    · next why h => exact he why h
  · exact fun _ _ h => hfa ⟨_,_,h⟩ _ (hl _ _)
  · exact fun _ _ h => hs ⟨_,_,h⟩ _ (hl _ _)
  · exact fun _ d' => ho d'

end Rules
end Outbox

inductive EvidenceError where
  | io
  | decode (e : DecodeError)
  | authority (e : ConsensusError)
  | message (text : String)
  deriving DecidableEq

def maxNetworkValidators : Nat := 32

abbrev EvidenceStore := OrderedMap ValidatorId DoubleVoteEvidence

/-- The network and storage a store is opened with: the committee they authenticate at a height. -/
abbrev Authority := UInt64 → Except EvidenceError AuthenticatedCommittee

section Source

variable (c : Suite) (committeeAt : Authority)

def verifyProof (proof : DoubleVoteEvidence) : Except EvidenceError Unit := do
  let committee ← committeeAt proof.height
  (proof.verify c committee).mapError .authority

-- The map gives the proofs in the order of their voters, which the stable sort keeps.
def verifyEvidenceHistory (proofs : EvidenceStore) : Except EvidenceError Unit := do
  ensure (.message "evidence roster exceeds its bound") (proofs.entries.length ≤ maxNetworkValidators)
  ((proofs.entries.map (·.2)).insertionSort fun a b => a.height ≤ b.height).forM
    (verifyProof c committeeAt)

def load (id : ValidatorId) : Io Outbox EvidenceError (Option DoubleVoteEvidence) := do
  let there ← (Outbox.metadata id).failingAs .io
  if there then
    let bytes ← (Outbox.readFile id (DoubleVoteEvidence.encodedLen + 1)).failingAs .io
    let proof ← Io.give ((DoubleVoteEvidence.decode bytes).mapError .decode)
    Io.give (ensure (.message "equivocation proof identity mismatch") (proof.voter = id))
    return some proof
  else
    return none

def loadAll (proofs : EvidenceStore) : List ValidatorId → Io Outbox EvidenceError EvidenceStore
  | [] => return proofs
  | id :: rest => do
    let found ← load id
    loadAll (found.elim proofs (proofs.insert id)) rest

def openStore (identities : List ValidatorId) : Io Outbox EvidenceError EvidenceStore := do
  let there ← Outbox.plainDirectory.failingAs .io
  if there then
    let proofs ← loadAll .empty identities
    Io.give (verifyEvidenceHistory c committeeAt proofs)
    return proofs
  else
    return .empty

def ensureDirectory : Io Outbox EvidenceError Unit := do
  let there ← Outbox.plainDirectory.failingAs .io
  if there then
    return ()
  else
    Outbox.createDir.failingAs .io
    Outbox.sync.failingAs .io
    return ()

def persist (proofs : EvidenceStore) (proof : DoubleVoteEvidence) :
    Io Outbox EvidenceError EvidenceStore :=
  if (proofs.get proof.voter).isSome then
    return proofs
  else do
    ensureDirectory
    (Outbox.createNew proof.voter).failingAs .io
    (Outbox.writeAll proof.voter proof.encode).failingAs .io
    Outbox.sync.failingAs .io
    Outbox.sync.failingAs .io
    return proofs.insert proof.voter proof

end Source

def Outbox.Found (d : Outbox) (id : ValidatorId) (found : Option DoubleVoteEvidence) : Prop :=
  d.files id = found.map DoubleVoteEvidence.encode ∧ ∀ proof ∈ found, proof.sameSlot ∧ proof.voter = id

def Outbox.Loaded (d : Outbox) (identities : List ValidatorId) (proofs : EvidenceStore) : Prop :=
  (∀ id ∈ identities, d.Found id (proofs.get id)) ∧ ∀ id ∉ identities, proofs.get id = none

section Spec

variable {T : Turn → Prop} {d : Outbox}

variable {bytes : Bytes} {proof : DoubleVoteEvidence}

lemma take_eq_encode (h : bytes.take (DoubleVoteEvidence.encodedLen + 1) = proof.encode) :
    bytes = proof.encode := by
  have hl := congrArg length h
  rw [length_take,HistoricalEvidence.evidence_length] at hl
  rw [← h,take_of_length_le]
  omega

lemma decode_ok_iff :
    DoubleVoteEvidence.decode (bytes.take (DoubleVoteEvidence.encodedLen + 1)) = .ok proof ↔
      proof.sameSlot ∧ bytes = proof.encode := by
  rw [DoubleVoteEvidence.decode_eq_ok]
  refine and_congr_right fun _ => ⟨take_eq_encode,?_⟩
  intro h
  rw [h,take_of_length_le]
  rw [HistoricalEvidence.evidence_length]
  omega

lemma encode_injective {a b : DoubleVoteEvidence} (ha : a.sameSlot) (hb : b.sameSlot)
    (h : a.encode = b.encode) : a = b := by
  have hd := DoubleVoteEvidence.decode_eq_ok.mpr ⟨ha,rfl⟩
  rw [h,DoubleVoteEvidence.decode_eq_ok.mpr ⟨hb,rfl⟩] at hd
  exact (Except.ok.inj hd).symm

lemma meets_load (id : ValidatorId) : Meets T (load id) d ⟨fun fd d' => d' = d ∧ d.Found id fd,
      fun _ d' => d' = d ∧ (CanFail T ∨ ∀ fd, ¬d.Found id fd),
      fun d' => d' = d ∧ CanStop T⟩ := by
  refine Outbox.ask (fun h => ⟨rfl,.inl h⟩) (fun h => ⟨rfl,h⟩) nofun ?_
  rintro _ ⟨⟩
  cases hfi : d.files id with
  | none => exact Meets.pure ⟨rfl,hfi,nofun⟩
  | some bytes =>
    -- A file that is there is found exactly when it decodes to a proof of its voter.
    have hfo : ∀ fd, d.Found id fd → ∃ pf, fd = some pf ∧ pf.sameSlot ∧
        pf.voter = id ∧ bytes = pf.encode := by
      intro fd ⟨heq,hp⟩
      cases fd with
      | none => simp [hfi] at heq
      | some pf =>
        rw [hfi] at heq
        exact ⟨pf,rfl,(hp pf rfl).1,(hp pf rfl).2,Option.some.inj heq⟩
    refine Outbox.ask (fun h => ⟨rfl,.inl h⟩) (fun h => ⟨rfl,h⟩) ?_ ?_
    · intro why hw
      simp [hfi] at hw
    · intro read hr
      simp only [hfi,Except.ok.injEq] at hr
      subst hr
      refine Meets.bind (R := fun pf d' => d' = d ∧ pf.sameSlot ∧ bytes = pf.encode)
        (Meets.give (fun pf h => ?_) (fun e h => ⟨rfl,.inr fun fd hf => ?_⟩)) ?_
      · exact ⟨rfl,decode_ok_iff.mp (mapError_eq_ok.mp h)⟩
      · obtain ⟨pf,_,hsl,_,hb⟩ := hfo fd hf
        rw [decode_ok_iff.mpr ⟨hsl,hb⟩] at h
        cases h
      · rintro pf d ⟨rfl,hsl,hb⟩
        refine Meets.bind (R := fun _ d' => d' = d ∧ pf.voter = id) (Meets.give ?_ ?_) ?_
        · exact fun _ h => ⟨rfl,ensure_eq_ok.mp h⟩
        · intro e h
          refine ⟨rfl,.inr fun fd hf => (ensure_eq_error.mp h).1 ?_⟩
          obtain ⟨other,_,ho,hv,hs⟩ := hfo fd hf
          rw [← hv,encode_injective hsl ho (hb.symm.trans hs)]
        · rintro _ _ ⟨rfl,hv⟩
          refine Meets.pure ⟨rfl,by rw [hfi,hb]; rfl,?_⟩
          intro fd hf
          exact Option.some.inj hf ▸ ⟨hsl,hv⟩

lemma meets_loadAll (identities : List ValidatorId) {pre : EvidenceStore}
    (hb : ∀ id proof, pre.get id = some proof → d.Found id (some proof)) :
    Meets T (loadAll pre identities) d
      ⟨fun proofs d' => d' = d ∧ (∀ id ∈ identities, d.Found id (proofs.get id)) ∧
          ∀ id ∉ identities, proofs.get id = pre.get id,
        fun _ d' => d' = d ∧ (CanFail T ∨ ∃ id ∈ identities, ∀ fd, ¬d.Found id fd),
        fun d' => d' = d ∧ CanStop T⟩ := by
  induction identities generalizing pre with
  | nil => exact Meets.pure ⟨rfl,nofun,fun _ _ => rfl⟩
  | cons id rest ih =>
    refine Meets.bind (Meets.mono (meets_load id) (fun _ _ h => h) ?_ (fun _ h => h)) ?_
    · rintro _ d ⟨rfl,h⟩
      exact ⟨rfl,h.imp_right fun h => ⟨id,mem_cons_self,h⟩⟩
    · rintro fd d ⟨rfl,hfo⟩
      have hg : ∀ k, (fd.elim pre (pre.insert id)).get k = if k = id then fd else pre.get k := by
        intro k
        cases fd with
        | some proof => exact (pre.get_insert id proof k).trans (by congr)
        | none =>
          split
          · next hk =>
            cases hp : pre.get k with
            | none => exact hp
            | some proof =>
              have hf := (hb k proof hp).1
              rw [hk,hfo.1] at hf
              cases hf
          · rfl
      have hn : ∀ k proof, (fd.elim pre (pre.insert id)).get k = some proof → d.Found k (some proof) := by
        intro k proof hk
        rw [hg] at hk
        split at hk
        · next heq => exact heq ▸ hk ▸ hfo
        · exact hb k proof hk
      refine Meets.mono (ih hn) ?_ ?_ (fun _ h => h)
      · rintro proofs d ⟨rfl,hi,ho⟩
        refine ⟨rfl,fun k hk => ?_,fun k hk => ?_⟩
        · by_cases hr : k ∈ rest
          · exact hi k hr
          · obtain rfl := (mem_cons.mp hk).resolve_right hr
            rw [ho k hr,hg,if_pos rfl]
            exact hfo
        · rw [mem_cons,not_or] at hk
          rw [ho k hk.2,hg,if_neg hk.1]
      · rintro _ d ⟨rfl,h⟩
        refine ⟨rfl,h.imp_right ?_⟩
        rintro ⟨k,hk,hbr⟩
        exact ⟨k,mem_cons_of_mem id hk,hbr⟩

lemma meets_openStore (c : Suite) (committeeAt : Authority) (identities : List ValidatorId)
    (hf : ∀ id, d.files id ≠ none → d.present = true) :
    Meets T (openStore c committeeAt identities) d
      ⟨fun proofs d' => d' = d ∧ d.Loaded identities proofs ∧
          verifyEvidenceHistory c committeeAt proofs = .ok (),
        fun _ d' => d' = d ∧ (CanFail T ∨ (∃ id ∈ identities, ∀ fd, ¬d.Found id fd) ∨
          ∃ proofs, d.Loaded identities proofs ∧ verifyEvidenceHistory c committeeAt proofs ≠ .ok ()),
        fun d' => d' = d ∧ CanStop T⟩ := by
  refine Outbox.ask (fun h => ⟨rfl,.inl h⟩) (fun h => ⟨rfl,h⟩) nofun ?_
  rintro _ ⟨⟩
  cases hp : d.present with
  | false =>
    refine Meets.pure ⟨rfl,⟨fun id _ => ⟨?_,nofun⟩,fun _ _ => rfl⟩,rfl⟩
    refine Classical.byContradiction fun hfi => ?_
    rw [hf id hfi] at hp
    cases hp
  | true =>
    refine Meets.bind (Meets.mono (meets_loadAll identities nofun) (fun _ _ h => h) ?_ (fun _ h => h)) ?_
    · rintro _ d ⟨rfl,h⟩
      exact ⟨rfl,h.imp_right .inl⟩
    · rintro proofs d ⟨rfl,hl⟩
      refine Meets.bind (R := fun _ d' => d' = d ∧ verifyEvidenceHistory c committeeAt proofs = .ok ())
        (Meets.give (fun _ h => ⟨rfl,h⟩) ?_) ?_
      · intro e h
        exact ⟨rfl,.inr (.inr ⟨proofs,hl,h ▸ nofun⟩)⟩
      · rintro _ d ⟨rfl,h⟩
        exact Meets.pure ⟨rfl,hl,h⟩

/-- What a call to keep a proof may do to the directory: add a part of that proof. -/
structure Outbox.Extends (d d' : Outbox) (proof : DoubleVoteEvidence) : Prop where
  keeps : ∀ id bytes, d.files id = some bytes → d'.files id = some bytes
  adds : ∀ id bytes, d'.files id = some bytes →
    d.files id = some bytes ∨ id = proof.voter ∧ bytes <+: proof.encode
  present : d'.present = true ∨ d' = d

lemma Outbox.extends_refl (d : Outbox) (proof : DoubleVoteEvidence) : d.Extends d proof :=
  ⟨fun _ _ h => h,fun _ _ h => .inl h,.inr rfl⟩

lemma Outbox.set_set (id : ValidatorId) (old new : Bytes) (d : Outbox) :
    (d.set id old).set id new = d.set id new := by
  simp [set]

lemma Outbox.extends_set (hn : d.files proof.voter = none) (hb : bytes <+: proof.encode) :
    d.Extends (set proof.voter bytes ⟨true,d.files⟩) proof := by
  refine ⟨fun id old h => ?_,fun id new h => ?_,.inl rfl⟩
  · change update d.files _ _ id = _
    rwa [update_of_ne]
    rintro rfl
    rw [hn] at h
    cases h
  · change update d.files _ _ id = _ at h
    by_cases hi : id = proof.voter
    · rw [hi,update_self,Option.some.injEq] at h
      exact .inr ⟨hi,h ▸ hb⟩
    · rw [update_of_ne hi] at h
      exact .inl h

lemma meets_persist (proofs : EvidenceStore) (pf : DoubleVoteEvidence) :
    Meets T (persist proofs pf) d
      ⟨fun after d' => proofs.get pf.voter ≠ none ∧ after = proofs ∧ d' = d ∨
          proofs.get pf.voter = none ∧ after = proofs.insert pf.voter pf ∧
            d.files pf.voter = none ∧ d' = Outbox.set pf.voter pf.encode ⟨true,d.files⟩,
        fun _ d' => d.Extends d' pf ∧ (CanFail T ∨ d.files pf.voter ≠ none),
        fun d' => d.Extends d' pf ∧ CanStop T⟩ := by
  unfold persist
  cases hg : proofs.get pf.voter with
  | some old => exact Meets.pure (.inl ⟨nofun,rfl,rfl⟩)
  | none =>
    have hdi : d.Extends ⟨true,d.files⟩ pf := ⟨fun _ _ h => h,fun _ _ h => .inl h,.inl rfl⟩
    refine Meets.bind (R := fun _ d' => d' = ⟨true,d.files⟩) ?_ ?_
    · refine Outbox.ask (fun h => ⟨d.extends_refl pf,.inl h⟩) (fun h => ⟨d.extends_refl pf,h⟩) nofun ?_
      rintro _ ⟨⟩
      cases hpr : d.present with
      | true => exact Meets.pure (by rw [← hpr])
      | false =>
        refine Outbox.act (J := fun d' => d.Extends d' pf) (d.extends_refl pf) ?_
          (fun h _ hd => ⟨hd,.inl h⟩) (fun h _ hd => ⟨hd,h⟩) (by simp [hpr]) ?_
        · intro _ d' h
          simp only [hpr,Bool.false_eq_true,if_false,Except.ok.injEq] at h
          exact h ▸ hdi
        · intro d' h
          simp only [hpr,Bool.false_eq_true,if_false,Except.ok.injEq] at h
          subst h
          exact Outbox.ask (fun h => ⟨hdi,.inl h⟩) (fun h => ⟨hdi,h⟩) nofun fun _ _ => Meets.pure rfl
    · rintro _ _ rfl
      by_cases hn : d.files pf.voter = none
      · have hp : ∀ bytes, bytes <+: pf.encode → d.Extends (.set pf.voter bytes ⟨true,d.files⟩) pf :=
          fun _ => Outbox.extends_set hn
        refine Outbox.act (J := fun d' => d.Extends d' pf) hdi ?_ (fun h _ hd => ⟨hd,.inl h⟩)
          (fun h _ hd => ⟨hd,h⟩) (by simp [hn]) ?_
        all_goals
          simp only [hn,if_true,Except.ok.injEq,forall_eq',forall_const]
        · exact hp [] nil_prefix
        -- The file is there and empty from here on, until the write has put the proof into it.
        · refine Outbox.act (J := fun d' => d.Extends d' pf) (hp [] nil_prefix) ?_
            (fun h _ hd => ⟨hd,.inl h⟩) (fun h _ hd => ⟨hd,h⟩) nofun ?_
          all_goals
            simp only [Except.ok.injEq,forall_eq',Outbox.set_set,Option.getD_none,take_length]
          · exact fun n => hp _ (List.take_prefix _ _)
          · have hdo := hp _ (prefix_refl _)
            refine Outbox.ask (fun h => ⟨hdo,.inl h⟩) (fun h => ⟨hdo,h⟩) nofun fun _ _ => ?_
            refine Outbox.ask (fun h => ⟨hdo,.inl h⟩) (fun h => ⟨hdo,h⟩) nofun fun _ _ => ?_
            exact Meets.pure (.inr ⟨trivial,rfl,trivial,rfl⟩)
      · refine Outbox.act (J := fun d' => d.Extends d' pf) hdi (by simp [hn])
          (fun h _ hd => ⟨hd,.inl h⟩) (fun h _ hd => ⟨hd,h⟩) (fun _ _ => ⟨hdi,.inr hn⟩) ?_
        simp [hn]

end Spec

structure World where
  outbox : Outbox
  store : Option EvidenceStore
  /-- The proofs that were to be kept. -/
  given : List DoubleVoteEvidence
  /-- Those of them for which the call made the file of the voter. -/
  created : List DoubleVoteEvidence
  /-- Those of which the caller was told that they are kept. -/
  told : List DoubleVoteEvidence

def World.offered (w : World) (proof : DoubleVoteEvidence) (outbox : Outbox) : World :=
  { w with
    outbox
    given := proof :: w.given
    created :=
      if w.outbox.files proof.voter = none ∧ outbox.files proof.voter ≠ none then proof :: w.created
      else w.created }

/-- The proof with which the file of a voter was made. -/
def World.first (w : World) (id : ValidatorId) : Option DoubleVoteEvidence :=
  w.created.find? (·.voter = id)

inductive Move where
  | reopen (turns : List Turn)
  | persist (proof : DoubleVoteEvidence) (turns : List Turn)

section Runs

variable (c : Suite) (committeeAt : Authority) (identities : List ValidatorId)

-- A process that stops loses its store; a call that fails leaves the one it had.
def World.step (w : World) : Move → World
  | .reopen turns =>
    match (openStore c committeeAt identities turns w.outbox).1 with
    | (.ok proofs, outbox) => { w with outbox, store := some proofs }
    | (_, outbox) => { w with outbox, store := none }
  | .persist proof turns =>
    match w.store with
    | none => w
    | some proofs =>
      match (persist proofs proof turns w.outbox).1 with
      | (.ok after, outbox) =>
        { w.offered proof outbox with store := some after, told := proof :: w.told }
      | (.error _, outbox) => w.offered proof outbox
      | (.stopped, outbox) => { w.offered proof outbox with store := none }

def World.start : World := ⟨⟨false, fun _ => none⟩, none, [], [], []⟩

def World.run (moves : List Move) : World := moves.foldl (World.step c committeeAt identities) .start

def ValidMoves (moves : List Move) : Prop :=
  ∀ proof turns, Move.persist proof turns ∈ moves → proof.sameSlot ∧
    verifyProof c committeeAt proof = .ok ()

/-- What the directory holds at any time: for every voter a part of the proof with which the file
was made, and the whole of it for every voter of whom the caller was told or of whom the store has a
proof. -/
structure World.Sound (w : World) : Prop where
  valid : ∀ proof ∈ w.given, proof.sameSlot ∧ verifyProof c committeeAt proof = .ok ()
  present : ∀ id, w.outbox.files id ≠ none → w.outbox.present = true
  given : ∀ proof ∈ w.created, proof ∈ w.given
  files : ∀ id bytes, w.outbox.files id = some bytes →
    ∃ proof, w.first id = some proof ∧ bytes <+: proof.encode
  absent : ∀ id, w.outbox.files id = none → w.first id = none
  told : ∀ proof ∈ w.told, ∃ kept, w.first proof.voter = some kept ∧
    w.outbox.files proof.voter = some kept.encode
  store : ∀ proofs ∈ w.store, ∀ id proof, proofs.get id = some proof →
    w.first id = some proof ∧ w.outbox.files id = some proof.encode

end Runs

section Steps

variable {c : Suite} {committeeAt : Authority} {identities : List ValidatorId} {w : World}

variable {id : ValidatorId} {pf : DoubleVoteEvidence}

lemma World.first_given (h : w.Sound c committeeAt) (hf : w.first id = some pf) :
    pf ∈ w.given ∧ pf.voter = id :=
  ⟨h.given pf (mem_of_find?_eq_some hf),by simpa using find?_some hf⟩

lemma World.Sound.first_of_file (h : w.Sound c committeeAt) {bs : Bytes}
    (hf : w.outbox.files id = some bs) (hl : bs.length = DoubleVoteEvidence.encodedLen) :
    ∃ pf, w.first id = some pf ∧ bs = pf.encode := by
  obtain ⟨pf,hp,hb⟩ := h.files id bs hf
  refine ⟨pf,hp,hb.eq_of_length ?_⟩
  rw [hl,HistoricalEvidence.evidence_length]

/-- What is read back is the proof with which the file was made. -/
lemma World.Sound.loaded (h : w.Sound c committeeAt) {proofs : EvidenceStore}
    (hl : w.outbox.Loaded identities proofs) (hi : id ∈ identities) :
    proofs.get id = w.first id := by
  obtain ⟨hf,hv⟩ := hl.1 id hi
  cases hg : proofs.get id with
  | none =>
    rw [hg] at hf
    exact (h.absent id hf).symm
  | some pf =>
    rw [hg] at hf hv
    obtain ⟨kept,hk,hb⟩ := h.first_of_file hf (HistoricalEvidence.evidence_length pf)
    have hs := (h.valid kept (World.first_given h hk).1).1
    rw [hk,encode_injective (hv pf rfl).1 hs hb]

lemma World.first_offered (w : World) (pf : DoubleVoteEvidence) (d : Outbox) (id : ValidatorId) :
    (w.offered pf d).first id =
      if id = pf.voter ∧ w.outbox.files id = none ∧ d.files id ≠ none then some pf else w.first id := by
  unfold first offered
  by_cases hi : id = pf.voter
  · subst hi
    split
    · next hn => rw [if_pos ⟨rfl,hn⟩,find?_cons_of_pos (by simp)]
    · next hn => rw [if_neg fun h => hn h.2]
  · have hn : ¬(id = pf.voter ∧ w.outbox.files id = none ∧ d.files id ≠ none) := fun h => hi h.1
    rw [if_neg hn]
    dsimp only
    split
    · rw [find?_cons_of_neg (by simpa using Ne.symm hi)]
    · rfl

lemma World.Sound.extend (h : w.Sound c committeeAt) {d : Outbox}
    (hpro : pf.sameSlot ∧ verifyProof c committeeAt pf = .ok ())
    (hd : w.outbox.Extends d pf) : (w.offered pf d).Sound c committeeAt := by
  have hold : ∀ {id bs}, w.outbox.files id = some bs → (w.offered pf d).first id = w.first id := by
    intro id bs hf
    rw [w.first_offered,if_neg]
    rintro ⟨-,hn,-⟩
    rw [hf] at hn
    cases hn
  refine ⟨forall_mem_cons.mpr ⟨hpro,h.valid⟩,?_,?_,?_,?_,?_,?_⟩
  · intro id hf
    rcases hd.present with hpr | rfl
    · exact hpr
    · exact h.present id hf
  · intro other ho
    change other ∈ ite _ _ _ at ho
    split at ho
    · exact (mem_cons.mp ho).elim (· ▸ mem_cons_self) fun hm => mem_cons_of_mem pf (h.given other hm)
    · exact mem_cons_of_mem pf (h.given other ho)
  · intro id bs hf
    cases ho : w.outbox.files id with
    | some old =>
      obtain rfl : old = bs := Option.some.inj ((hd.keeps id old ho).symm.trans hf)
      rw [hold ho]
      exact h.files id old ho
    | none =>
      rcases hd.adds id bs hf with hn | ⟨hi,hp⟩
      · rw [ho] at hn
        cases hn
      · refine ⟨pf,?_,hp⟩
        have hn : d.files id ≠ none := fun hn => nomatch hf.symm.trans hn
        rw [w.first_offered,if_pos ⟨hi,ho,hn⟩]
  · intro id hn
    rw [w.first_offered,if_neg fun hc => hc.2.2 hn]
    refine h.absent id ?_
    cases ho : w.outbox.files id with
    | none => rfl
    | some old => exact (hd.keeps id old ho).symm.trans hn
  · intro other ho
    obtain ⟨kept,hk,hf⟩ := h.told other ho
    exact ⟨kept,(hold hf).trans hk,hd.keeps _ _ hf⟩
  · intro proofs hs id other hg
    obtain ⟨hk,hf⟩ := h.store proofs hs id other hg
    exact ⟨(hold hf).trans hk,hd.keeps _ _ hf⟩

lemma World.Sound.withStore (h : w.Sound c committeeAt) {store : Option EvidenceStore}
    (hs : ∀ proofs ∈ store, ∀ id pf, proofs.get id = some pf →
      w.first id = some pf ∧ w.outbox.files id = some pf.encode) :
    World.Sound c committeeAt { w with store } :=
  ⟨h.valid,h.present,h.given,h.files,h.absent,h.told,hs⟩

lemma World.Sound.telling (h : w.Sound c committeeAt)
    (ht : ∃ kept, w.first pf.voter = some kept ∧ w.outbox.files pf.voter = some kept.encode) :
    World.Sound c committeeAt { w with told := pf :: w.told } :=
  ⟨h.valid,h.present,h.given,h.files,h.absent,forall_mem_cons.mpr ⟨ht,h.told⟩,h.store⟩

lemma World.Sound.loading (h : w.Sound c committeeAt) {proofs : EvidenceStore}
    (hl : w.outbox.Loaded identities proofs) :
    World.Sound c committeeAt { w with store := some proofs } := by
  refine h.withStore ?_
  rintro _ ⟨⟩ id pf hg
  have hi : id ∈ identities := by
    by_contra ho
    rw [hl.2 id ho] at hg
    cases hg
  have hf := (hl.1 id hi).1
  rw [hg] at hf
  exact ⟨(h.loaded hl hi).symm.trans hg,hf⟩

/-- The one case in which a file is made: the store had no proof of the voter, nor had the
directory. -/
lemma World.Sound.keeping (h : w.Sound c committeeAt) {proofs : EvidenceStore}
    (hpro : pf.sameSlot ∧ verifyProof c committeeAt pf = .ok ()) (hst : w.store = some proofs)
    (hf : w.outbox.files pf.voter = none) :
    World.Sound c committeeAt
      { w.offered pf (Outbox.set pf.voter pf.encode ⟨true,w.outbox.files⟩) with
        store := some (proofs.insert pf.voter pf), told := pf :: w.told } := by
  have hn := h.extend hpro (Outbox.extends_set hf (prefix_refl _))
  have hk : (Outbox.set pf.voter pf.encode ⟨true,w.outbox.files⟩).files pf.voter = some pf.encode :=
    update_self _ _ _
  have hw : (w.offered pf (Outbox.set pf.voter pf.encode ⟨true,w.outbox.files⟩)).first pf.voter =
      some pf := by
    rw [w.first_offered,if_pos ⟨rfl,hf,by rw [hk]; exact nofun⟩]
  refine (hn.telling ⟨pf,hw,hk⟩).withStore ?_
  rintro _ ⟨⟩ id other hg
  rw [OrderedMap.get_insert] at hg
  split at hg
  · next hi =>
    cases hg
    subst hi
    exact ⟨hw,hk⟩
  · exact hn.store proofs hst id other hg

lemma World.Sound.step (h : w.Sound c committeeAt) {move : Move}
    (hm : ValidMoves c committeeAt [move]) : (w.step c committeeAt identities move).Sound c committeeAt := by
  cases move with
  | reopen ts =>
    have he := (meets_openStore (T := fun _ => True) c committeeAt identities
      h.present ts (fun _ _ => trivial)).2
    unfold World.step
    rcases hr : (openStore c committeeAt identities ts w.outbox).1 with ⟨proofs | _ | _,d⟩
    all_goals
      simp only [hr]
      rw [hr] at he
      obtain ⟨rfl,he⟩ := he
    · exact h.loading he.1
    all_goals exact h.withStore nofun
  | persist pf ts =>
    have hp := hm pf ts mem_cons_self
    unfold World.step
    cases hst : w.store with
    | none => exact h
    | some proofs =>
      have he := (meets_persist (T := fun _ => True) (d := w.outbox) proofs pf ts
        (fun _ _ => trivial)).2
      dsimp only
      rcases hr : (persist proofs pf ts w.outbox).1 with ⟨after | _ | _,d⟩
      all_goals
        dsimp only
        rw [hr] at he
      · rcases he with ⟨hs,rfl,rfl⟩ | ⟨hno,rfl,hf,rfl⟩
        · obtain ⟨old,ho⟩ := Option.ne_none_iff_exists'.mp hs
          have hn := h.extend hp (w.outbox.extends_refl pf)
          refine (hn.telling ⟨old,hn.store after hst pf.voter old ho⟩).withStore ?_
          rintro _ ⟨⟩
          exact hn.store after hst
        · exact h.keeping hp hst hf
      · exact h.extend hp he.1
      · exact (h.extend hp he.1).withStore nofun

end Steps

def Outbox.Whole (d : Outbox) (id : ValidatorId) : Prop :=
  ∀ bytes, d.files id = some bytes → bytes.length = DoubleVoteEvidence.encodedLen

def Outbox.recorded (d : Outbox) (identities : List ValidatorId) : List ValidatorId :=
  (identities.filter fun id => (d.files id).isSome).dedup

section Final

variable {c : Suite} {committeeAt : Authority} {identities : List ValidatorId} {d : Outbox}
  {proofs : EvidenceStore}

lemma Outbox.Loaded.length (h : d.Loaded identities proofs) :
    proofs.entries.length = (d.recorded identities).length := by
  have hk : (proofs.entries.map (·.1)).Nodup := (pairwise_map.mpr proofs.sorted).imp fun hl => hl.ne
  rw [← length_map (f := Prod.fst)]
  refine ((perm_ext_iff_of_nodup hk (nodup_dedup _)).mpr fun id => ?_).length_eq
  have hm : id ∈ proofs.entries.map (·.1) ↔ (proofs.get id).isSome := by
    rw [Option.isSome_iff_exists,mem_map]
    constructor
    · rintro ⟨⟨k,pf⟩,he,rfl⟩
      exact ⟨pf,OrderedMap.get_eq_some_iff.mpr he⟩
    · rintro ⟨pf,hg⟩
      exact ⟨(id,pf),OrderedMap.get_eq_some_iff.mp hg,rfl⟩
  rw [hm,mem_dedup,mem_filter]
  by_cases hi : id ∈ identities
  · simp [hi,(h.1 id hi).1]
  · simp [hi,h.2 id hi]

lemma Outbox.Loaded.whole (h : d.Loaded identities proofs) {id : ValidatorId} (hi : id ∈ identities) :
    d.Whole id := by
  intro bytes hf
  rw [(h.1 id hi).1,Option.map_eq_some_iff] at hf
  obtain ⟨pf,_,rfl⟩ := hf
  exact HistoricalEvidence.evidence_length pf

end Final

namespace CutWrite
open TwoSteps

def committee : Except ConsensusError AuthenticatedCommittee := do
  let start ← PotbState.fromConfiguration suite config [key 1, key 2]
  start.committee.context suite

def committeeAt : Authority := fun _ => committee.mapError .authority

def root : Hash256 := (committee.toOption.map (·.root)).getD (TwoSteps.id 9)

def proof : DoubleVoteEvidence := (offence root).evidence

/-- A second proof against the voter. -/
def other : DoubleVoteEvidence := ⟨vote root none, vote root (some (TwoSteps.id 8))⟩

def moves : List Move := [.reopen [], .persist proof [.done, .done, .done, .done, .stopped false 0]]

end CutWrite

end Astrolune.Node
