import Astrolune.Keystore.Journal

namespace Astrolune.Keystore
open Lib Codec List

/-- A watermark that may have moved forward; `none` is the empty journal. -/
def Reaches (a b : Option Decision) : Prop := ∀ d ∈ a, ∃ e ∈ b, d.Extends e

lemma Reaches.refl (a : Option Decision) : Reaches a a := fun d h => ⟨d,h,.inl rfl⟩

lemma Reaches.trans {a b c : Option Decision} (ha : Reaches a b) (hb : Reaches b c) :
    Reaches a c := by
  intro d hd
  obtain ⟨e,he,hde⟩ := ha d hd
  obtain ⟨f,hf,hef⟩ := hb e he
  exact ⟨f,hf,hde.trans hef⟩

structure Chain.Sound (isProtected : Bool) (c : Chain) : Prop where
  safety : c.safety.isSome = (c.last.isSome && isProtected)
  phase : ∀ last ∈ c.last, last.1.phase ≤ precommitPhase
  formed : ∀ last ∈ c.last, ∀ safety ∈ c.safety, safety.WellFormed last.1

section
variable {H : Hasher} {prot : Bool}

lemma origin_sound (tip : Hash256) : Chain.Sound prot ⟨tip,none,none,none⟩ :=
  ⟨rfl,by simp,by simp⟩

lemma decodeEntry_ok {bs : Bytes} {seq : Nat} {tip : Hash256} {en : DecodedEntry}
    (h : decodeEntry H bs seq tip prot = .ok en) :
    en.position.phase ≤ precommitPhase ∧ en.safety.isSome = prot := by
  obtain ⟨⟨⟨parsed,decoded⟩,rest⟩,hr,h⟩ := bind_eq_ok.mp h
  obtain ⟨_,he,h⟩ := bind_eq_ok.mp h
  cases h
  refine ⟨(ensure_eq_ok.mp he).2.1,?_⟩
  have hr := failAs_eq_ok.mp hr
  simp only [readEntry,StateT.run_bind] at hr
  obtain ⟨⟨_,_⟩,_,hr⟩ := bind_eq_ok.mp hr
  obtain ⟨⟨_,_⟩,_,hr⟩ := bind_eq_ok.mp hr
  obtain ⟨⟨_,_⟩,_,hr⟩ := bind_eq_ok.mp hr
  obtain ⟨⟨sf,_⟩,hs,hr⟩ := bind_eq_ok.mp hr
  obtain ⟨⟨_,_⟩,_,hr⟩ := bind_eq_ok.mp hr
  obtain ⟨⟨_,_⟩,_,hr⟩ := bind_eq_ok.mp hr
  cases hr
  cases prot with
  | false => cases hs; rfl
  | true =>
    simp only [readSafetyIf,if_true,map_eq_pure_bind,StateT.run_bind] at hs
    obtain ⟨_,_,hs⟩ := bind_eq_ok.mp hs
    cases hs
    rfl

lemma Chain.step_ok {c c' : Chain} {seq : Nat} {bs : Bytes} (hc : c.Sound prot)
    (h : c.step H prot seq bs = .ok c') :
    c'.Sound prot ∧ Reaches c.decision c'.decision := by
  obtain ⟨en,hd,h⟩ := bind_eq_ok.mp h
  obtain ⟨_,hv,h⟩ := bind_eq_ok.mp h
  obtain ⟨_,ho,h⟩ := bind_eq_ok.mp h
  cases h
  obtain ⟨hp,hsa⟩ := decodeEntry_ok hd
  have ho := ensure_eq_ok.mp ho
  have hva : ∀ next ∈ en.safety, validateSafety en.position next c.guarded = .ok () := by
    intro next hn
    have hv := failAs_eq_ok.mp hv
    rw [Option.mem_def.mp hn] at hv
    exact hv
  refine ⟨⟨by simpa using hsa,by simpa using hp,?_⟩,?_⟩
  · simp only [Option.mem_some_iff,forall_eq']
    exact fun sf hs => (validateSafety_ok.mp (hva sf hs)).1
  · intro d hde
    obtain ⟨⟨pos,msg⟩,hl,rfl⟩ := Option.map_eq_some_iff.mp hde
    refine ⟨⟨en.position,en.message,en.safety⟩,rfl,.inr ⟨ho _ hl,?_⟩⟩
    -- an old safety record exists only in a protected journal, where the new entry has one too
    intro hh old hol
    have hol : c.safety = some old := hol
    have hpr : prot = true := by
      have := hc.safety
      simpa [hol,hl] using this.symm
    obtain ⟨next,hn⟩ := Option.isSome_iff_exists.mp (hsa.trans hpr)
    refine ⟨next,hn,(validateSafety_ok.mp (hva next hn)).2 (pos,old) ?_ hh⟩
    simp [Chain.guarded,hl,hol]

lemma replay_ok {n seq : Nat} {c c' : Chain} {rest : Bytes} (hc : c.Sound prot)
    (h : replay H prot n seq c rest = .ok c') :
    c'.Sound prot ∧ Reaches c.decision c'.decision := by
  induction n generalizing seq c rest with
  | zero => cases h; exact ⟨hc,.refl _⟩
  | succ n ih =>
    obtain ⟨_,_,h⟩ := bind_eq_ok.mp h
    obtain ⟨mid,hs,h⟩ := bind_eq_ok.mp h
    obtain ⟨hm,hr⟩ := Chain.step_ok hc hs
    obtain ⟨hm',hr'⟩ := ih hm h
    exact ⟨hm',hr.trans hr'⟩

lemma replay_add (n m seq : Nat) (c : Chain) (rest : Bytes) : replay H prot (n + m) seq c rest =
      replay H prot n seq c rest >>= fun c' =>
        replay H prot m (seq + n) c' (rest.drop (n * recordSize prot)) := by
  induction n generalizing seq c rest with
  | zero => simp [replay]
  | succ n ih =>
    rw [Nat.succ_add,replay,replay]
    simp only [bind_assoc]
    congr 1
    funext _
    congr 1
    funext c'
    rw [ih,drop_drop,Nat.add_right_comm seq 1 n,Nat.succ_mul,
      Nat.add_comm (recordSize prot),Nat.add_assoc]

lemma replay_take {n : Nat} {rest : Bytes} (seq : Nat) (c : Chain) {rest' : Bytes}
    (h : rest.take (n * recordSize prot) = rest'.take (n * recordSize prot)) :
    replay H prot n seq c rest = replay H prot n seq c rest' := by
  induction n generalizing seq c rest rest' with
  | zero => rfl
  | succ n ih =>
    have hs : recordSize prot ≤ (n + 1) * recordSize prot :=
      Nat.le_mul_of_pos_left _ (Nat.succ_pos n)
    have hl := congrArg length h
    simp only [length_take] at hl
    have hf : rest.take (recordSize prot) = rest'.take (recordSize prot) := by
      have := congrArg (take (recordSize prot)) h
      simpa [take_take,Nat.min_eq_left hs] using this
    have hb : (rest.drop (recordSize prot)).take (n * recordSize prot) =
        (rest'.drop (recordSize prot)).take (n * recordSize prot) := by
      have := congrArg (drop (recordSize prot)) h
      rw [drop_take,drop_take,Nat.succ_mul,Nat.add_sub_cancel] at this
      exact this
    have hr : recordSize prot ≤ rest.length ↔ recordSize prot ≤ rest'.length := by
      omega
    simp only [replay,hf,hr,ih _ _ hb]

end

section
variable (H : Hasher) (context : SigningContext) (publicKey : Fixed 32)

def journalIdentity (isProtected : Bool) : Hash256 :=
  domainHash H headerDomain (headerBody context publicKey isProtected)

def originChain (isProtected : Bool) : Chain :=
  ⟨journalIdentity H context publicKey isProtected, none, none, none⟩

/-- The two layouts of a file that `Journal::open` accepts, with the journal it returns. -/
inductive Opens (content : Bytes) : Journal → Prop where
  | appending {isProtected : Bool} {count : Nat} {c : Chain}
      (head : content.take journalHeaderBytes = headerVersion H context publicKey isProtected)
      (length : content.length = journalHeaderBytes + count * recordSize isProtected)
      (bound : count ≤ maxJournalRecords)
      (run : replay H isProtected count 1 (originChain H context publicKey isProtected)
        (content.drop journalHeaderBytes) = .ok c) :
      Opens content
        (.ofChain c count (journalIdentity H context publicKey isProtected) isProtected)
  | rolled {c : Chain} {r : Rollover}
      (head : content.take journalHeaderBytes = headerVersion H context publicKey true)
      (length : content.length = maxRolloverJournalBytes)
      (run : replay H true maxJournalRecords 1 (originChain H context publicKey true)
        (content.drop journalHeaderBytes) = .ok c)
      (extension : Rollover.decode H c.tip c.last c.safety
        (content.drop maxProtectedJournalBytes) = .ok r)
      (written : content.drop maxProtectedJournalBytes = r.encode H) :
      Opens content ((Journal.ofChain c maxJournalRecords
        (journalIdentity H context publicKey true) true).withRollover r)

variable {H context publicKey}

@[simp] lemma headerBody_length (prot : Bool) :
    (headerBody context publicKey prot).length = 76 := by
  simp [headerBody,ascii,context.genesis.2,publicKey.2]

lemma headerVersion_length (prot : Bool) :
    (headerVersion H context publicKey prot).length = journalHeaderBytes := by
  simp [headerVersion,(domainHash H headerDomain _).2,journalHeaderBytes]

lemma headerVersion_take (prot : Bool) : (headerVersion H context publicKey prot).take 76 =
      headerBody context publicKey prot :=
  take_left' (headerBody_length prot)

lemma headerVersion_drop (prot : Bool) : (headerVersion H context publicKey prot).drop 76 =
      (journalIdentity H context publicKey prot).1 :=
  drop_left' (headerBody_length prot)

lemma headerMode_headerVersion (prot : Bool) :
    Journal.headerMode (headerVersion H context publicKey prot) = .ok prot := by
  have hv : ((headerVersion H context publicKey prot).drop 4).take 4 =
      u32Bytes (if prot then 2 else 1) := by
    simp only [headerVersion,headerBody,append_assoc]
    rw [drop_left' (by rfl)]
    exact take_left' (u32Bytes_length _)
  cases prot <;> simp [Journal.headerMode,hv] <;> decide

lemma maxRollover_eq :
    maxRolloverJournalBytes = maxProtectedJournalBytes + Rollover.extensionBytes := rfl

lemma prefix_count : (maxProtectedJournalBytes - journalHeaderBytes) / recordSize true =
    maxJournalRecords ∧ (maxProtectedJournalBytes - journalHeaderBytes) % recordSize true = 0 := by
  have hs : maxProtectedJournalBytes - journalHeaderBytes = recordSize true * maxJournalRecords :=
    Nat.add_sub_cancel_left _ _
  rw [hs]
  exact ⟨Nat.mul_div_cancel_left _ (by decide),Nat.mul_mod_right _ _⟩

lemma appending_length_lt {count : Nat} (prot : Bool) (h : count ≤ maxJournalRecords) :
    journalHeaderBytes + count * recordSize prot < maxRolloverJournalBytes := by
  have hs : recordSize prot ≤ protectedRecordBytes := by cases prot <;> decide
  have hm : count * recordSize prot ≤ protectedRecordBytes * maxJournalRecords := by
    rw [Nat.mul_comm protectedRecordBytes]
    exact Nat.mul_le_mul h hs
  have he : 0 < Rollover.extensionBytes := by decide
  simp only [maxRolloverJournalBytes,maxProtectedJournalBytes]
  omega

variable {ct : Bytes} {j : Journal}

lemma opens_of_openBytes (h : Journal.openBytes H context publicKey ct = .ok j) :
    Opens H context publicKey ct j := by
  obtain ⟨_,hle,h⟩ := bind_eq_ok.mp h
  obtain ⟨prot,_,h⟩ := bind_eq_ok.mp h
  obtain ⟨_,_,h⟩ := bind_eq_ok.mp h
  obtain ⟨_,hh,h⟩ := bind_eq_ok.mp h
  obtain ⟨_,hm,h⟩ := bind_eq_ok.mp h
  obtain ⟨_,hb,h⟩ := bind_eq_ok.mp h
  obtain ⟨c,hru,h⟩ := bind_eq_ok.mp h
  obtain ⟨j',hr,h⟩ := bind_eq_ok.mp h
  obtain ⟨_,hc,h⟩ := bind_eq_ok.mp h
  cases h
  have hle := ensure_eq_ok.mp hle
  have hh := ensure_eq_ok.mp hh
  have hm := ensure_eq_ok.mp hm
  have hb := ensure_eq_ok.mp hb
  have hi : domainHash H headerDomain ((ct.take journalHeaderBytes).take 76) =
      journalIdentity H context publicKey prot := by
    rw [hh,headerVersion_take]
    rfl
  rw [hi] at hru hr
  cases hro : prot && ct.length == maxRolloverJournalBytes with
  | false =>
    simp only [hro,Journal.recoverIf,Bool.false_eq_true,if_false] at hm hb hru hr
    cases hr
    refine .appending hh ?_ hb hru
    have := Nat.div_add_mod (ct.length - journalHeaderBytes) (recordSize prot)
    rw [hm,Nat.mul_comm] at this
    omega
  | true =>
    simp only [Bool.and_eq_true,beq_iff_eq] at hro
    obtain ⟨rfl,hl⟩ := hro
    have hdr : (ct.drop maxProtectedJournalBytes).length = Rollover.extensionBytes := by
      rw [length_drop,hl,maxRollover_eq,Nat.add_sub_cancel_left]
    have ht := take_of_length_le hdr.le
    simp only [hl,beq_self_eq_true,Bool.and_self,if_true,prefix_count.1,Journal.recoverIf,
      Journal.recoverRollover,ht] at hru hr
    obtain ⟨r,hd,hr⟩ := bind_eq_ok.mp hr
    cases hr
    refine .rolled hh hl hru hd ?_
    obtain ⟨_,_,hc⟩ := bind_eq_ok.mp hc
    have := ensure_eq_ok.mp hc
    rwa [ht] at this

lemma openBytes_of_opens (h : Opens H context publicKey ct j) :
    Journal.openBytes H context publicKey ct = .ok j := by
  have hi (prot : Bool) : domainHash H headerDomain (headerBody context publicKey prot) =
        journalIdentity H context publicKey prot := rfl
  have hm (prot : Bool) : (headerVersion H context publicKey prot).take 4 = ascii "ALSJ" := by
    simp only [headerVersion,headerBody,append_assoc]
    exact take_left' (by rfl)
  cases h with
  | @appending prot count c head length bound run =>
    have hl := appending_length_lt prot bound
    have hro : (prot && ct.length == maxRolloverJournalBytes) = false := by
      simp [length,hl.ne]
    have hp : 0 < recordSize prot := by cases prot <;> decide
    have hs : ct.length - journalHeaderBytes = count * recordSize prot := by
      rw [length,Nat.add_sub_cancel_left]
    have hra : journalHeaderBytes ≤ ct.length ∧ ct.length ≤ maxRolloverJournalBytes := by omega
    have hc : (Journal.ofChain c count (journalIdentity H context publicKey prot)
        prot).checkLength H ct = .ok () := by
      simp [Journal.checkLength,Journal.ofChain,length,ensure_of]
    simp only [Journal.openBytes,ensure_of hra,head,headerMode_headerVersion,ok_bind,
      headerVersion_take,headerVersion_drop,hi,hm,and_self,ensure_of,hro,
      Bool.false_eq_true,if_false,hs,Nat.mul_mod_left,Nat.mul_div_cancel _ hp,bound]
    simp only [originChain] at run
    simp only [run,ok_bind,Journal.recoverIf,Bool.false_eq_true,if_false,hc,pure_eq_ok]
  | @rolled c r head length run extension written =>
    have hro : (true && ct.length == maxRolloverJournalBytes) = true := by
      simp [length]
    have hra : journalHeaderBytes ≤ ct.length ∧ ct.length ≤ maxRolloverJournalBytes := by
      refine ⟨?_,length.le⟩
      rw [length]
      simp only [maxRolloverJournalBytes,maxProtectedJournalBytes]
      omega
    have ht : (ct.drop maxProtectedJournalBytes).take Rollover.extensionBytes =
        ct.drop maxProtectedJournalBytes := by
      apply take_of_length_le
      rw [length_drop,length,maxRollover_eq,Nat.add_sub_cancel_left]
    have hc : ((Journal.ofChain c maxJournalRecords
        (journalIdentity H context publicKey true) true).withRollover r).checkLength
          H ct = .ok () := by
      have hr : ((Journal.ofChain c maxJournalRecords
          (journalIdentity H context publicKey true) true).withRollover r).rollover = some r := rfl
      simp only [Journal.checkLength,hr,Option.isSome_some,if_true,ensure_of length,ok_bind,
        ht,ensure_of written]
    simp only [Journal.openBytes,ensure_of hra,head,headerMode_headerVersion,ok_bind,
      headerVersion_take,headerVersion_drop,hi,hm,and_self,ensure_of,hro,
      if_true,prefix_count.1,prefix_count.2,le_refl]
    simp only [originChain] at run
    simp only [run,ok_bind,Journal.recoverIf,if_true,Journal.recoverRollover,ht]
    have he : Rollover.decode H
        (Journal.ofChain c maxJournalRecords (journalIdentity H context publicKey true) true).tip
        (Journal.ofChain c maxJournalRecords (journalIdentity H context publicKey true) true).last
        (Journal.ofChain c maxJournalRecords (journalIdentity H context publicKey true)
          true).safety (ct.drop maxProtectedJournalBytes) = .ok r := extension
    simp only [he,ok_bind,pure_eq_ok,hc]

lemma openBytes_ok : Journal.openBytes H context publicKey ct = .ok j ↔
      Opens H context publicKey ct j :=
  ⟨opens_of_openBytes,openBytes_of_opens⟩

end
end Astrolune.Keystore
