import Astrolune.Keystore.Replay

namespace Astrolune.Keystore
open Lib Codec List Option

variable {H : Hasher} {ctx : SigningContext} {pk : Fixed 32}

lemma headerVersion_mode {p q : Bool} (h : headerVersion H ctx pk p =
    headerVersion H ctx pk q) : p = q := by
  have := congrArg Journal.headerMode h
  simpa only [headerMode_headerVersion,Except.ok.injEq] using this

variable {c : Chain} {r : Rollover} {ct left : Bytes} {j j' : Journal}

lemma Rollover.baseline_sound (hc : c.Sound true) {pos : SigningPosition}
    {msg : Hash256} {he : SigningSafety} (hl : c.last = some (pos,msg))
    (hs : c.safety = some he) (s : Fin 2) :
    Fits ⟨maxJournalRecords,pos,msg,he⟩ s ⟨maxJournalRecords,pos,msg,he⟩ := by
  refine ⟨hc.phase _ hl,?_,.inl rfl,validateSafety_ok.mpr ⟨hc.formed _ hl _ hs,?_⟩⟩
  · simp only [maxJournalRecords]
    decide
  · simp only [mem_some_iff,forall_eq']
    exact fun _ => .refl he

lemma withRollover_decision (j : Journal) (r : Rollover) :
    (j.withRollover r).decision = some (Rollover.decision r.latest) := rfl

lemma replay_reaches {prot : Bool} {count tot : Nat} {d : Chain} {old new : Bytes}
    (hl : count ≤ tot)
    (hs : old.take (count * recordSize prot) = new.take (count * recordSize prot))
    (ho : replay H prot count 1 (originChain H ctx pk prot) old = .ok c)
    (hn : replay H prot tot 1 (originChain H ctx pk prot)
      new = .ok d) : Reaches c.decision d.decision := by
  obtain ⟨more,rfl⟩ := Nat.exists_eq_add_of_le hl
  rw [replay_add,← replay_take 1 _ hs,ho,ok_bind] at hn
  have hc := (replay_ok (origin_sound _) ho).1
  exact (replay_ok hc hn).2

lemma Opens.rolled_reaches {bs : Bytes}
    (hde : Rollover.decode H c.tip c.last c.safety bs = .ok r) :
    Reaches c.decision (some (Rollover.decision r.latest)) := by
  obtain ⟨pos,msg,he,hl,hs,_,hv⟩ := Rollover.decode_ok hde
  have hb : c.decision = some (Rollover.decision ⟨maxJournalRecords,pos,msg,he⟩) := by
    simp [Chain.decision,hl,hs,Rollover.decision]
  intro d hd
  rw [hb,mem_some_iff] at hd
  subst hd
  exact ⟨_,rfl,hv.baseline_extends⟩

lemma opens_append (h : Opens H ctx pk ct j) (hr : j.rollover = none)
    (h' : Opens H ctx pk (ct ++ left) j') :
    Reaches j.decision j'.decision := by
  cases h with
  | rolled => simp [Journal.withRollover] at hr
  | @appending prot count c head length bound run =>
    have hh : (ct ++ left).take journalHeaderBytes = ct.take journalHeaderBytes := by
      apply take_append_of_le_length
      omega
    have hs : (ct.drop journalHeaderBytes).take (count * recordSize prot) =
        ((ct ++ left).drop journalHeaderBytes).take (count * recordSize prot) := by
      rw [drop_append_of_le_length (by omega),take_append_of_le_length (by simp; omega)]
    cases h' with
    | @appending isProtected' count' c' he' length' bound' run' =>
      have hm : prot = isProtected' := headerVersion_mode (by rw [← head,← he',hh])
      subst hm
      have hle : count ≤ count' := by
        have hp : 0 < recordSize prot := by cases prot <;> decide
        have hl : (ct ++ left).length = ct.length + left.length := length_append
        have hmu : count * recordSize prot ≤ count' * recordSize prot := by omega
        exact Nat.le_of_mul_le_mul_right hmu hp
      exact replay_reaches hle hs run run'
    | @rolled c' r he' length' run' extension written =>
      have hm : prot = true := headerVersion_mode (by rw [← head,← he',hh])
      subst hm
      rw [withRollover_decision]
      exact (replay_reaches bound hs run run').trans (Opens.rolled_reaches extension)

lemma slotOffset_le (s : Fin 2) :
    Rollover.slotOffset s + protectedRecordBytes ≤ maxRolloverJournalBytes := by
  have hs : s.val * protectedRecordBytes ≤ protectedRecordBytes := by
    have := Nat.mul_le_mul_right protectedRecordBytes (Nat.le_of_lt_succ s.isLt)
    omega
  simp only [Rollover.slotOffset,maxRolloverJournalBytes,Rollover.extensionBytes]
  omega

lemma slots_apart : ∀ s : Fin 2,
    Rollover.slotOffset (s + 1) + protectedRecordBytes ≤ Rollover.slotOffset s ∨
      Rollover.slotOffset s + protectedRecordBytes ≤ Rollover.slotOffset (s + 1) := by
  have ho : ((0 : Fin 2) + 1).val = 1 := rfl
  have hz : ((1 : Fin 2) + 1).val = 0 := rfl
  refine Fin.forall_fin_two.mpr ⟨.inr ?_,.inl ?_⟩
  · simp only [Rollover.slotOffset,ho,Fin.val_zero]
    omega
  · simp only [Rollover.slotOffset,hz,Fin.val_one]
    omega

lemma slot_frame {s : Fin 2}
    (hle : ct.length = maxRolloverJournalBytes) (hl : left.length ≤ protectedRecordBytes) :
    let torn := overwrite ct (Rollover.slotOffset s) left
    torn.length = ct.length ∧
      torn.take maxProtectedJournalBytes = ct.take maxProtectedJournalBytes ∧
      Rollover.slotBytes (torn.drop maxProtectedJournalBytes) (s + 1) =
        Rollover.slotBytes (ct.drop maxProtectedJournalBytes) (s + 1) := by
  have hr := slotOffset_le s
  have ho : Rollover.slotOffset s ≤ ct.length := by omega
  refine ⟨overwrite_length (by omega),overwrite_take ?_ ho,?_⟩
  · simp only [Rollover.slotOffset]
    omega
  · simp only [Rollover.slotBytes,drop_drop]
    apply overwrite_range _ ho
    have := slots_apart s
    simp only [Rollover.slotOffset] at this ⊢
    omega

/-- Whatever a failed slot write leaves in its slot, a journal that opens over it has not
gone back: the other slot still holds the latest decision. -/
lemma opens_slot (h : Opens H ctx pk ct j) (hr : j.rollover = some r)
    (hl : left.length ≤ protectedRecordBytes)
    (h' : Opens H ctx pk
      (overwrite ct (Rollover.slotOffset (Rollover.slot (j.count + 1))) left) j') :
    Reaches j.decision j'.decision := by
  cases h with
  | appending => simp [Journal.ofChain] at hr
  | @rolled c r₀ head length run extension written =>
    obtain rfl : r₀ = r := by simpa [Journal.withRollover] using hr
    have hco : ((Journal.ofChain c maxJournalRecords
        (journalIdentity H ctx pk true) true).withRollover r₀).count = r₀.latest.sequence := rfl
    rw [hco] at h'
    obtain ⟨hle,ht,hsl⟩ := slot_frame (s := Rollover.slot (r₀.latest.sequence + 1)) length hl
    generalize overwrite ct _ left = torn at h' hle ht hsl
    have hsu (n m : Nat) (h : n + m ≤ maxProtectedJournalBytes) :
        (torn.drop n).take m = (ct.drop n).take m := take_drop_of_take ht h
    have hh : torn.take journalHeaderBytes = ct.take journalHeaderBytes :=
      hsu 0 journalHeaderBytes (by simp [maxProtectedJournalBytes])
    cases h' with
    | @appending isProtected' count' c' he' length' bound' run' =>
      have := appending_length_lt isProtected' bound'
      omega
    | @rolled c' r' he' length' run' extension' written' =>
      have hc : c' = c := by
        have hsa : (torn.drop journalHeaderBytes).take (maxJournalRecords * recordSize true) =
            (ct.drop journalHeaderBytes).take (maxJournalRecords * recordSize true) := by
          apply hsu
          simp [maxProtectedJournalBytes,recordSize,Nat.mul_comm]
        rw [replay_take 1 _ hsa,run] at run'
        exact (Except.ok.inj run').symm
      subst hc
      obtain ⟨pos,message,he,hla,hs,hre,hv⟩ := Rollover.decode_ok extension
      obtain ⟨pos',msg',hel',hl',hs',hr',hv'⟩ := Rollover.decode_ok extension'
      obtain ⟨rfl,rfl⟩ : pos' = pos ∧ msg' = message := by
        simpa [hla] using hl'.symm
      obtain rfl : hel' = he := by simpa [hs] using hs'.symm
      have hk : r'.slots (Rollover.slot (r₀.latest.sequence + 1) + 1) = r₀.latest := by
        have hn := hr' (Rollover.slot (r₀.latest.sequence + 1) + 1)
        rw [hsl,hv'.anchor,← hv.anchor,hre,Except.ok.injEq] at hn
        rw [← hn,hv.latest_kept]
      rw [withRollover_decision,withRollover_decision]
      intro d hd
      rw [mem_some_iff] at hd
      subst hd
      exact ⟨_,rfl,hk ▸ hv'.slot_extends _⟩

end Astrolune.Keystore
