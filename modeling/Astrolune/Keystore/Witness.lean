import Astrolune.Keystore.Anchor

namespace Astrolune.Keystore
open Lib Codec List Function

lemma positionBefore_trans {a b c : Option SigningPosition} (ha : positionBefore a b = true)
    (hb : positionBefore b c = true) : positionBefore a c = true := by
  cases c with
  | none => cases b <;> cases hb
  | some c =>
    cases b with
    | none => cases a <;> cases ha
    | some b =>
      cases a with
      | none => rfl
      | some a =>
        simp only [positionBefore,decide_eq_true_eq] at ha hb ⊢
        exact ha.trans hb

def JournalState.Advances (a b : JournalState) : Prop :=
  a = b ∨ positionBefore a.position b.position = true

structure JournalState.Canonical (s : JournalState) : Prop where
  bounded : s.sequence < 2 ^ 64
  empty : s.position = none → s.sequence = 0 ∧ s.message = Hash256.zero
  present : ∀ position ∈ s.position, 0 < s.sequence ∧ position.phase ≤ precommitPhase

namespace AnchorStore

/-- `newer` sits in its own slot, one decision after `older`. -/
structure Steps (older newer : JournalState) (physical : Fin 2) : Prop where
  sequence : newer.sequence = older.sequence + 1
  bounded : newer.sequence < 2 ^ 64
  place : destination newer.sequence = physical
  position : positionBefore older.position newer.position = true

def Ordered (slots : Fin 2 → JournalState) : Prop :=
  slots 0 = slots 1 ∨ Steps (slots 0) (slots 1) 1 ∨ Steps (slots 1) (slots 0) 0

variable {older newer : JournalState} {physical : Fin 2} {left : Bytes}

lemma checkStep_ok : checkStep older newer physical = .ok () ↔ Steps older newer physical := by
  rw [checkStep,ensure_eq_ok,checkedAdd64_eq_some]
  constructor
  · rintro ⟨⟨hs,hb⟩,hd,hp⟩
    exact ⟨hs,hb,hd,hp⟩
  · rintro ⟨hs,hb,hd,hp⟩
    exact ⟨⟨hs,hb⟩,hd,hp⟩

lemma Steps.lt (h : Steps older newer physical) : older.sequence < newer.sequence := by
  rw [h.sequence]
  exact Nat.lt_succ_self _

lemma checkSlots_ok {slots : Fin 2 → JournalState} :
    checkSlots (slots 0) (slots 1) = .ok () ↔ Ordered slots := by
  unfold checkSlots Ordered
  by_cases heq : slots 0 = slots 1
  · simp [heq]
  · by_cases hl : (slots 0).sequence < (slots 1).sequence
    · have hn : ¬Steps (slots 1) (slots 0) 0 := fun h => hl.not_gt h.lt
      simp [heq,hl,hn,checkStep_ok]
    · have hn : ¬Steps (slots 0) (slots 1) 1 := fun h => hl h.lt
      simp [heq,hl,hn,checkStep_ok]

variable {H : Hasher} {context : SigningContext} {publicKey : Fixed 32}
  {identity : Hash256} {a : AnchorStore}

lemma Ordered.cases (h : Ordered a.slots) :
    (∀ s, a.slots s = a.latest) ∨ ∃ s, a.latest = a.slots s ∧ Steps (a.slots (s + 1)) (a.slots s) s := by
  rcases h with heq | hs | hs
  · left
    have hl : a.latest = a.slots 1 := by simp [latest,heq]
    exact Fin.forall_fin_two.mpr ⟨heq.trans hl.symm,hl.symm⟩
  · exact .inr ⟨1,by simp [latest,hs.lt.not_gt],hs⟩
  · exact .inr ⟨0,by simp [latest,hs.lt],hs⟩

lemma destination_succ (seq : Nat) : destination (seq + 1) = destination seq + 1 := by
  unfold destination
  split <;> split <;> first | rfl | omega

lemma Ordered.latest_kept (h : Ordered a.slots) :
    a.slots (destination (a.latest.sequence + 1) + 1) = a.latest := by
  rcases h.cases with ha | ⟨s,hl,hs⟩
  · exact ha _
  · rw [hl,destination_succ,hs.place,Rollover.other_other]

lemma Ordered.advances (h : Ordered a.slots) (s : Fin 2) : (a.slots s).Advances a.latest := by
  rcases h.cases with ha | ⟨t,hl,hste⟩
  · exact .inl (ha s)
  · rw [hl]
    by_cases hst : s = t
    · exact .inl (by rw [hst])
    · have hs : s = t + 1 := by omega
      rw [hs]
      exact .inr hste.position

def slotAt (content : Bytes) (s : Fin 2) : Bytes := (content.drop (slotOffset s)).take slotBytes

def headerChecksum (H : Hasher) (context : SigningContext) (publicKey : Fixed 32)
    (identity : Hash256) : Hash256 :=
  domainHash H (ascii "astrolune.signing.anchor.v1") (headerBody context publicKey identity)

@[simp] lemma headerBody_length : (headerBody context publicKey identity).length = 108 := by
  simp [headerBody,magic,ascii,context.genesis.2,publicKey.2,identity.2]

lemma header_length : (header H context publicKey identity).length = headerBytes := by
  simp [header,(domainHash H (ascii "astrolune.signing.anchor.v1") _).2,headerBytes]

/-- The file layouts that `AnchorStore::open` accepts, with the store it returns. -/
structure Opens (H : Hasher) (context : SigningContext) (publicKey : Fixed 32)
    (identity : Hash256) (content : Bytes) (a : AnchorStore) : Prop where
  length : content.length = anchorBytes
  head : content.take headerBytes = header H context publicKey identity
  origin : a.identity = identity
  checksum : a.checksum = headerChecksum H context publicKey identity
  fresh : a.poisoned = false
  slots : ∀ s, decodeSlot H a.checksum s (slotAt content s) = .ok (a.slots s)
  order : Ordered a.slots

variable {ct : Bytes} {st : JournalState}

lemma take_header (h : ct.take headerBytes = header H context publicKey identity) :
    ct.take 108 = headerBody context publicKey identity := by
  have := congrArg (take 108) h
  rw [take_take,header,take_left' headerBody_length] at this
  exact this

lemma openBytes_ok : openBytes H context publicKey identity ct = .ok a ↔
      Opens H context publicKey identity ct a := by
  constructor
  · intro h
    obtain ⟨_,hl,h⟩ := bind_eq_ok.mp h
    obtain ⟨_,_,h⟩ := bind_eq_ok.mp h
    obtain ⟨_,hh,h⟩ := bind_eq_ok.mp h
    obtain ⟨s₀,h₀,h⟩ := bind_eq_ok.mp h
    obtain ⟨s₁,h₁,h⟩ := bind_eq_ok.mp h
    obtain ⟨_,ho,h⟩ := bind_eq_ok.mp h
    cases h
    have hh := ensure_eq_ok.mp hh
    refine ⟨ensure_eq_ok.mp hl,hh,rfl,?_,rfl,?_,?_⟩
    · rw [take_header hh]
      rfl
    · exact Fin.forall_fin_two.mpr ⟨h₀,h₁⟩
    · exact checkSlots_ok.mp ho
  · intro h
    have hc : domainHash H (ascii "astrolune.signing.anchor.v1") (ct.take 108) =
        a.checksum := by rw [take_header h.head,h.checksum]; rfl
    have hm : ct.take 8 = magic := by
      have := congrArg (take 8) (take_header h.head)
      rw [take_take,headerBody,take_left' (by rfl)] at this
      exact this
    have hd : (header H context publicKey identity).drop 108 = a.checksum.1 := by
      rw [header,drop_left' headerBody_length,h.checksum]
      rfl
    have ho := checkSlots_ok.mpr h.order
    have ha : (⟨identity,a.checksum,![a.slots 0,a.slots 1],false⟩ : AnchorStore) = a := by
      have hs : ![a.slots 0,a.slots 1] = a.slots := funext (Fin.forall_fin_two.mpr ⟨rfl,rfl⟩)
      rw [hs,← h.origin,← h.fresh]
    have h₀ : decodeSlot H a.checksum 0 ((ct.drop (slotOffset 0)).take slotBytes) =
        .ok (a.slots 0) := h.slots 0
    have h₁ : decodeSlot H a.checksum 1 ((ct.drop (slotOffset 1)).take slotBytes) =
        .ok (a.slots 1) := h.slots 1
    simp only [openBytes,ensure_of h.length,ok_bind,hc,hm,hd,and_self,ensure_of,
      h.head,h₀,h₁,ho,pure_eq_ok,ha]

lemma slotBody_length (st : JournalState) : (slotBody st).length = 86 := by
  simp [slotBody,st.message.2,st.tip.2]

lemma slotRecord_length (checksum : Hash256) (s : Fin 2) (st : JournalState) :
    (slotRecord H checksum s st).length = slotBytes := by
  rw [slotRecord,length_append,slotBody_length,(slotHash H checksum s _).2]
  rfl

lemma run_readSlot (stored : Hash256) (hb : st.sequence < 2 ^ 64) :
    readSlot.run (slotBody st ++ stored.1) = .ok (⟨st.sequence,
      if st.position.isSome then 1 else 0,st.position.getD ⟨0,0,0⟩,st.message,
      st.tip,stored⟩,[]) := by
  have hw : (UInt64.ofNat st.sequence).toNat = st.sequence := UInt64.toNat_ofNat_of_lt' hb
  simp [readSlot,slotBody,StateT.run_bind,Decoder.run_readU64_digits,run_readPosition,hw]

lemma decodeSlot_slotRecord (checksum : Hash256) (s : Fin 2) (h : st.Canonical) :
    decodeSlot H checksum s (slotRecord H checksum s st) = .ok st := by
  have ht : (slotRecord H checksum s st).take 86 = slotBody st := take_left' (slotBody_length st)
  have hpo : canonicalPosition ⟨st.sequence,if st.position.isSome then 1 else 0,
      st.position.getD ⟨0,0,0⟩,st.message,st.tip,
      slotHash H checksum s (slotBody st)⟩ = .ok st.position := by
    cases hp : st.position with
    | none => simp [canonicalPosition,h.empty hp]
    | some pos => simp [canonicalPosition,h.present pos hp]
  unfold decodeSlot
  rw [ht,slotRecord,run_readSlot _ h.bounded]
  simp only [failAs_ok,ok_bind,ensure_of,hpo,pure_eq_ok]

lemma slotOffset_room (s : Fin 2) : slotOffset s + slotBytes ≤ anchorBytes := by
  have hs : s.val * slotBytes ≤ slotBytes := by
    have := Nat.mul_le_mul_right slotBytes (Nat.le_of_lt_succ s.isLt)
    omega
  simp only [slotOffset,anchorBytes]
  omega

lemma slotOffset_apart : ∀ s : Fin 2, slotOffset (s + 1) + slotBytes ≤ slotOffset s ∨
    slotOffset s + slotBytes ≤ slotOffset (s + 1) := by decide

lemma anchor_frame {s : Fin 2} (hle : ct.length = anchorBytes)
    (hl : left.length ≤ slotBytes) :
    let torn := overwrite ct (slotOffset s) left
    torn.length = ct.length ∧ torn.take headerBytes = ct.take headerBytes ∧
      slotAt torn (s + 1) = slotAt ct (s + 1) := by
  have hr := slotOffset_room s
  have ho : slotOffset s ≤ ct.length := by omega
  refine ⟨overwrite_length (by omega),overwrite_take ?_ ho,?_⟩
  · simp only [slotOffset]
    omega
  · apply overwrite_range _ ho
    have := slotOffset_apart s
    omega

lemma opens_torn {identity' : Hash256} {a' : AnchorStore}
    (h : Opens H context publicKey identity ct a) (hl : left.length ≤ slotBytes)
    (h' : Opens H context publicKey identity'
      (overwrite ct (slotOffset (destination (a.latest.sequence + 1))) left) a') :
    a.latest.Advances a'.latest := by
  obtain ⟨_,ht,hs⟩ := anchor_frame (s := destination (a.latest.sequence + 1)) h.length hl
  have hsu : a'.checksum = a.checksum := by
    have hb : headerBody context publicKey identity' = headerBody context publicKey identity := by
      rw [← take_header h'.head,← take_header h.head]
      exact @take_drop_of_take _ _ _ 0 108 ht (by decide)
    rw [h'.checksum,h.checksum,headerChecksum,headerChecksum,hb]
  have hk : a'.slots (destination (a.latest.sequence + 1) + 1) = a.latest := by
    have hn := h'.slots (destination (a.latest.sequence + 1) + 1)
    rw [hs,hsu,h.slots,Except.ok.injEq] at hn
    rw [← hn,h.order.latest_kept]
  rw [← hk]
  exact h'.order.advances _

lemma opens_commit (h : Opens H context publicKey identity ct a)
    (hse : st.sequence = a.latest.sequence + 1) (hc : st.Canonical)
    (hpo : positionBefore a.latest.position st.position = true) :
    let slot := destination st.sequence
    let a' := { a with slots := update a.slots slot st }
    Opens H context publicKey identity
      (overwrite ct (slotOffset slot) (slotRecord H a.checksum slot st)) a' ∧
      a'.latest = st := by
  dsimp only
  have hk := h.order.latest_kept
  rw [← hse] at hk
  have hw : (slotRecord H a.checksum (destination st.sequence) st).length =
      slotBytes := slotRecord_length _ _ _
  obtain ⟨hl,hta,hot⟩ := anchor_frame (s := destination st.sequence) h.length hw.le
  have hr := slotOffset_room (destination st.sequence)
  have hh : slotAt (overwrite ct (slotOffset (destination st.sequence))
      (slotRecord H a.checksum (destination st.sequence) st)) (destination st.sequence) =
      slotRecord H a.checksum (destination st.sequence) st := by
    have := @overwrite_at (slotOffset (destination st.sequence)) ct
      (slotRecord H a.checksum (destination st.sequence) st) (by rw [h.length]; omega)
    rwa [hw] at this
  have hst : Steps a.latest st (destination st.sequence) := ⟨hse,hc.bounded,rfl,hpo⟩
  generalize hs : destination st.sequence = s at *
  have hn : ∀ t : Fin 2, t + 1 ≠ t := by decide
  have hne : update a.slots s st s = st := update_self ..
  have ho : update a.slots s st (s + 1) = a.latest := by
    rw [update_of_ne (hn s),hk]
  generalize update a.slots s st = slots at hne ho ⊢
  have hp : s = 0 ∧ slots 0 = st ∧ slots 1 = a.latest ∨
      s = 1 ∧ slots 1 = st ∧ slots 0 = a.latest := by
    rcases (show s = 0 ∨ s = 1 by omega) with rfl | rfl
    · exact .inl ⟨rfl,hne,ho⟩
    · exact .inr ⟨rfl,hne,ho⟩
  have hor : Ordered slots := by
    rcases hp with ⟨rfl,h₀,h₁⟩ | ⟨rfl,h₁,h₀⟩
    · exact .inr (.inr (by rw [h₀,h₁]; exact hst))
    · exact .inr (.inl (by rw [h₀,h₁]; exact hst))
  refine ⟨⟨hl.trans h.length,hta.trans h.head,h.origin,h.checksum,h.fresh,fun t => ?_, hor⟩,?_⟩
  · change decodeSlot H a.checksum t _ = .ok (slots t)
    by_cases ht : t = s
    · rw [ht,hh,hne]
      exact decodeSlot_slotRecord _ _ hc
    · obtain rfl : t = s + 1 := by omega
      rw [hot,ho,← hk]
      exact h.slots _
  · have hlt := hst.lt
    rcases hp with ⟨_,h₀,h₁⟩ | ⟨_,h₁,h₀⟩
    · simp only [latest,h₀,h₁]
      exact if_pos hlt
    · simp only [latest,h₀,h₁]
      exact if_neg hlt.not_gt

end AnchorStore

section
variable (H : Hasher) (context : SigningContext) (publicKey : Fixed 32)

def AnchorInStep (file : File) (a : AnchorStore) : Prop :=
  ∃ content identity, file = .settled content ∧
    AnchorStore.Opens H context publicKey identity content a

def AnchorHolds (file : File) (state : JournalState) : Prop :=
  ∀ content, file.MayRead content → ∀ identity a,
    AnchorStore.Opens H context publicKey identity content a → state.Advances a.latest

def Commits (a : AnchorStore) (state : JournalState) :
    AnchorStore × File × Except KeystoreError Unit → Prop
  | (a', file, .ok ()) => AnchorInStep H context publicKey file a' ∧ a'.latest = state ∧
      a.latest.Advances state
  | (a', file, .error _) =>
      (AnchorInStep H context publicKey file a' ∧ a'.latest = a.latest) ∨
      (a'.poisoned = true ∧ AnchorHolds H context publicKey file a.latest)

variable {H context publicKey} {file : File} {a : AnchorStore} {st : JournalState}

lemma AnchorStore.Opens.unique {ct : Bytes} {identity identity' : Hash256}
    {a' : AnchorStore} (h : AnchorStore.Opens H context publicKey identity ct a)
    (h' : AnchorStore.Opens H context publicKey identity' ct a') :
    a'.latest = a.latest := by
  have hb : AnchorStore.headerBody context publicKey identity' =
      AnchorStore.headerBody context publicKey identity := by
    rw [← AnchorStore.take_header h'.head,← AnchorStore.take_header h.head]
  have hsu : a'.checksum = a.checksum := by
    rw [h'.checksum,h.checksum,AnchorStore.headerChecksum,AnchorStore.headerChecksum,hb]
  have hs : a'.slots = a.slots := by
    funext s
    have := h'.slots s
    rw [hsu,h.slots s] at this
    exact (Except.ok.inj this).symm
  simp only [AnchorStore.latest,hs]

lemma AnchorInStep.holds (h : AnchorInStep H context publicKey file a) :
    AnchorHolds H context publicKey file a.latest := by
  obtain ⟨ct,identity,rfl,ho⟩ := h
  intro read hr identity' a' ha'
  rw [File.mayRead_settled hr] at ha'
  exact .inl (ho.unique ha').symm

lemma commit_commits (io : WriteOutcome) (h : AnchorInStep H context publicKey file a)
    (hph : ∀ pos ∈ st.position, pos.phase ≤ precommitPhase) :
    Commits H context publicKey a st (a.commit H file io st) := by
  unfold AnchorStore.commit
  split
  · exact .inl ⟨h,rfl⟩
  split
  · rename_i heq
    exact ⟨h,heq,.inl heq⟩
  split
  · exact .inl ⟨h,rfl⟩
  rename_i hst
  obtain ⟨hs,hpo⟩ := not_not.mp hst
  obtain ⟨hs,hb⟩ := checkedAdd64_eq_some.mp hs
  have hc : st.Canonical := by
    refine ⟨hb,fun hno => ?_,fun pos hp => ⟨by omega,hph pos hp⟩⟩
    rw [hno] at hpo
    simp [positionBefore] at hpo
  obtain ⟨ct,identity,rfl,ho⟩ := h
  cases io with
  | done =>
    obtain ⟨hn,hl⟩ := AnchorStore.opens_commit ho hs hc hpo
    exact ⟨⟨_,identity,rfl,hn⟩,hl,.inr hpo⟩
  | failed left =>
    refine .inr ⟨rfl,fun read hr identity' a' ha' => ?_⟩
    obtain ⟨torn,ht,rfl⟩ := File.mayRead_failed hr
    rw [AnchorStore.slotRecord_length] at ht
    rw [hs] at ha'
    exact AnchorStore.opens_torn ho ht ha'

end
end Astrolune.Keystore
