import Astrolune.Storage.Publish

namespace Astrolune.Storage
open Lib Codec State AppendOnlyStorage List Option

variable {H : Hasher} {T : Turn → Prop} {loss : Loss} {d : LogDisk} {K : Pledges}
  {P : Finding} {rs : List Record}
  {retention : Option RetentionRecord}

lemma core_of_rebuild {log : AppendOnlyStorage} (h : rebuild H rs = .ok log) :
    log.core = log := by
  induction rs using reverseRecOn generalizing log with
  | nil =>
    cases h
    rfl
  | append_singleton fr last ih =>
    obtain ⟨pre,hb,hr⟩ := rebuild_snoc.mp h
    have hc := replay_core hr
    rw [ih hb,hr] at hc
    exact (Except.ok.inj hc).symm

lemma foldlM_replay {log : AppendOnlyStorage} (h : rebuild H rs = .ok log) (file : Nat)
    (retention : Option RetentionRecord) :
    rs.foldlM (replay H) (unread H file retention) = .ok { log with file, retention } := by
  induction rs using reverseRecOn generalizing log with
  | nil =>
    cases h
    rfl
  | append_singleton fr last ih =>
    obtain ⟨pre,hb,hr⟩ := rebuild_snoc.mp h
    obtain ⟨cp,st,ha,rfl⟩ := replay_eq_ok.mp hr
    rw [foldlM_append,ih hb,ok_bind,foldlM_cons]
    have hn : replay H { pre with file, retention } last =
        .ok { pre.replayed H last (pre.nextLocation H last) cp st with
          file, retention } := replay_eq_ok.mpr ⟨cp,st,ha,rfl⟩
    rw [hn,ok_bind]
    rfl

lemma CalmBy.unmark (h : CalmBy H loss d K P) : CalmBy H loss (d.unlink .swap) K P := by
  obtain ⟨rs,retention,i,hP,hva,hp,hi,hf⟩ := h.top
  refine ⟨h.honors.same (Nat.le_refl _) fun _ _ => rfl,h.untorn,fun v hv => ?_,
    rs,retention,i,hP,hva,hp.congr (by simp) (by simp) (by simp),by simpa using hi,
    hf⟩
  rcases hv.unlink with hv | ⟨w,hw,rfl,-⟩
  · exact h.views v hv
  · obtain ⟨-,rs,retention,hP,hva,hp⟩ := h.views w hw
    refine ⟨fun s hs => ?_,rs,retention,hP,hva,hp.congr (by simp) (by simp) (by simp)⟩
    simp at hs

lemma meets_discardCompaction (h : CalmBy H loss d K P) : Meets T discardCompaction d
      ⟨fun _ d' => CalmBy H loss d' K P,fun _ d' => CanFail T ∧ Calm H loss d' P,
        fun d' => CanStop T ∧ Calm H loss d' P⟩ := by
  have hc : ∀ {n : LogFile} {t : LogDisk}, Scratch n → CalmBy H loss t K P →
      Meets T (removeAbsentOk n) t ⟨fun _ d' => CalmBy H loss d' K P,
        fun _ d' => CanFail T ∧ Calm H loss d' P,
        fun d' => CanStop T ∧ Calm H loss d' P⟩ := fun hn ht =>
    (meets_clear hn loss.ordered).mono (fun _ _ hw => ht.within hw.2)
      (fun _ _ hw => ⟨hw.1,K,ht.within hw.2⟩) (fun _ hw => ⟨hw.1,K,ht.within hw.2⟩)
  refine (hc (.inr (.inl rfl)) h).bind fun _ d1 h1 => ?_
  refine Meets.bind (R := fun _ t => CalmBy H loss t K P) ?_ fun _ d2 h2 =>
    hc (.inr (.inr rfl)) h2
  exact meets_removeAbsentOk (fun _ => h1) h1.unmark
    (fun hf => ⟨⟨hf,K,h1⟩,hf,K,h1.unmark⟩) (fun hs => ⟨⟨hs,K,h1⟩,hs,K,h1.unmark⟩)

def NoMarker (d : LogDisk) : Prop :=
  ∀ s, d.entry .swap = some s → (d.inode s).content.length < headBytesLength

lemma Unmarked.noMarker (h : Unmarked K d.entry) (hd : d.Honors K) : NoMarker d := by
  intro s hs
  obtain ⟨bs,hp,hl⟩ := h s hs
  have hk := hd.kept s
  rw [hp] at hk
  exact Nat.lt_of_le_of_lt (IsPrefix.length_le hk) hl

lemma meets_readMarker (hm : NoMarker d) :
    Meets T (Io.attempt (readHeadAt H .swap) : DiskIo (Except StorageError (Nat × Hash256))) d
      ⟨fun x d' => d' = d ∧ ∃ e, x = .error e,fun _ _ => False,fun d' => CanStop T ∧ d' = d⟩ := by
  apply Meets.attempt
  refine Meets.bind (R := fun i t => d = t ∧ (d.inode i).content.length < headBytesLength)
    (Meets.failingAs (Disk.meets_openFile (fun i hi => ⟨rfl,hm i hi⟩) (fun _ => ⟨rfl,_,rfl⟩)
      (fun _ => ⟨rfl,_,rfl⟩) (fun hs => ⟨hs,rfl⟩))) ?_
  rintro i _ ⟨rfl,hl⟩
  refine Meets.bind (R := fun bs t => d = t ∧ bs.length < headBytesLength)
    (Meets.failingAs (Disk.meets_readToEnd ⟨rfl,?_⟩ (fun _ => ⟨rfl,_,rfl⟩) (fun hs => ⟨hs,rfl⟩))) ?_
  · exact Nat.lt_of_le_of_lt (length_take_le' _ _) hl
  · rintro bs _ ⟨rfl,hl⟩
    rw [parseHead_of_length (Nat.ne_of_lt hl)]
    exact Meets.fail ⟨rfl,_,rfl⟩

lemma meets_finishCompaction (h : CalmBy H loss d K P) : Meets T (finishCompaction H) d
      ⟨fun _ d' => CalmBy H loss d' K P,fun _ d' => CanFail T ∧ Calm H loss d' P,
        fun d' => CanStop T ∧ Calm H loss d' P⟩ := by
  have hm := (h.views _ (Disk.mayShow_entry _ _)).1.noMarker h.honors
  refine Meets.bind ((meets_readMarker hm).mono (fun _ _ => id) (fun _ _ => False.elim)
    (fun t ht => ⟨ht.1,K,ht.2 ▸ h⟩)) ?_
  rintro x _ ⟨rfl,e,rfl⟩
  exact meets_discardCompaction h

def Kept (H : Hasher) (d : LogDisk) : Option RetentionRecord → Prop
  | none => d.entry .retain = none
  | some record => ∃ i, d.entry .retain = some i ∧ d.inode i = ⟨record.toBytes H, none⟩

lemma Retains.kept (h : Retains H K d.entry retention) (hd : d.Honors K) : Kept H d retention := by
  cases retention with
  | none => exact h
  | some rec =>
    obtain ⟨i,hi,hK⟩ := h
    have hk := hd.kept i
    rw [hK] at hk
    exact ⟨i,hi,hk⟩

section Reading

variable {J : LogDisk → Prop} {file head : Nat}

lemma leads_readRetention (h : Kept H d retention) (hr : ∀ rec, retention = some rec →
      ¬(rec.floor = 0 ∨ rec.compactions = 0 ∨ rec.block = Hash256.zero)) (hJ : J d) :
    Leads T J (readRetention H) d retention d := by
  cases retention with
  | none =>
    refine Meets.bind (R := fun x t => t = d ∧ (x = .error .notFound ∨ CanFail T ∧ x = .error .other))
      ?_ ?_
    · apply Meets.attempt
      exact Disk.meets_openFile (fun i hi => nomatch h.symm.trans hi)
        (fun _ => ⟨rfl,.inl rfl⟩) (fun hf => ⟨rfl,.inr ⟨hf,rfl⟩⟩) (fun hs => ⟨hs,hJ⟩)
    · rintro _ _ ⟨rfl,rfl | ⟨hf,rfl⟩⟩
      · exact Leads.pure _ _
      · exact Meets.fail ⟨hf,hJ⟩
  | some rec =>
    obtain ⟨i,hi,hn⟩ := h
    refine Meets.bind (R := fun x t => t = d ∧ (x = .ok i ∨ CanFail T ∧ x = .error .other)) ?_ ?_
    · apply Meets.attempt
      refine Disk.meets_openFile (fun j hj => ⟨rfl,.inl ?_⟩) (fun hno => ?_)
        (fun hf => ⟨rfl,.inr ⟨hf,rfl⟩⟩) (fun hs => ⟨hs,hJ⟩)
      · rw [some.inj (hi.symm.trans hj)]
      · cases hi.symm.trans hno
    · rintro _ _ ⟨rfl,rfl | ⟨hf,rfl⟩⟩
      · refine ((Disk.leads_readToEnd hJ).failingAs _).bind ?_
        have hre : (RetentionRecord.fromBytes H (rec.toBytes H)).toOption = some rec := by
          rw [RetentionRecord.fromBytes_toBytes,if_neg (hr rec rfl)]
          rfl
        rw [hn,take_of_length_le (by simp [retentionRecordBytes]),hre]
        exact Leads.pure _ _
      · exact Meets.fail ⟨hf,hJ⟩

structure Found (H : Hasher) (d : LogDisk) (file head : Nat) (records : List Record) :
    Prop where
  logEntry : d.entry .log = some file
  headEntry : d.entry .head = some head
  apart : head ≠ file
  starts : image H records <+: (d.inode file).content
  published : (d.inode head).content = headOf H records

def trimmed (d : LogDisk) (file head n : Nat) : LogDisk :=
  (((d.alter file (·.setLen n)).alter file (·.sync)).alter head (·.sync)).settle

structure Throughout (J : LogDisk → Prop) (d : LogDisk) (file head n : Nat) : Prop where
  start : J d
  cut : J (d.alter file (·.setLen n))
  synced : J ((d.alter file (·.setLen n)).alter file (·.sync))
  headSynced : J (((d.alter file (·.setLen n)).alter file (·.sync)).alter head (·.sync))
  settled : J (trimmed d file head n)

lemma leads_trimTail {n : Nat} (hh : d.entry .head = some head) (hJ : Throughout J d file head n) :
    Leads T J (trimTail file n) d () (trimmed d file head n) := by
  refine ((Disk.leads_setLen hJ.start hJ.cut).failingAs _).bind ?_
  refine ((Disk.leads_syncAll hJ.cut hJ.synced).failingAs _).bind ?_
  have ho := Disk.leads_openFile (T := T) (n := .head) (i := head)
    (d := (d.alter file (·.setLen n)).alter file (·.sync)) hh hJ.synced
  refine (ho.failingAs _).bind ?_
  refine ((Disk.leads_syncAll hJ.synced hJ.headSynced).failingAs _).bind ?_
  exact (Disk.leads_syncDir hJ.headSynced hJ.settled).failingAs _

lemma leads_replayPublished {log : AppendOnlyStorage} (hv : Valid H rs retention)
    (hl : rebuild H rs = .ok log) (hf : Found H d file head rs)
    (hJ : Throughout J d file head (image H rs).length) :
    Leads T (fun s => J s.1) (replayPublished H) (d,unread H file retention) ()
      (trimmed d file head (image H rs).length,{ log with file, retention }) := by
  have hr : Leads T J (readHeadAt H .head) d _ d :=
    leads_readHeadAt hf.headEntry hf.published hv.fits hJ.start
  refine (hr.outer fun _ => id).bind ?_
  refine (Leads.give (ensure_of (headerSize_le rs))).bind ?_
  refine (Leads.read _ _).bind ?_
  refine (((Disk.leads_fileLength hJ.start).failingAs _).outer fun _ => id).bind ?_
  refine (Leads.give (ensure_of hf.starts.length_le)).bind ?_
  have hlo : Leads T (fun s => J s.1) (replayLoop H (image H ([] ++ rs)).length
      (image H rs).length) (d,unread H file retention) ()
      (d,{ log with file, retention }) :=
    leads_replayLoop hv.written hf.starts (follows_unread _ _)
      (foldlM_replay hl file retention) (by simp) hJ.start
  refine hlo.bind ?_
  have hfo := follows_of_rebuild hl
  obtain ⟨log',hl',hc⟩ := hv.rebuilt
  rw [hl] at hl'
  cases hl'
  refine (Leads.read _ _).bind ?_
  refine (Leads.give (ensure_of ⟨hfo.endOffset,hfo.tip⟩)).bind ?_
  refine (Leads.give (hc : checkRetention { log with file, retention } = .ok ())).bind ?_
  exact (leads_trimTail hf.headEntry hJ).outer fun _ => id

lemma leads_openFound {log : AppendOnlyStorage} (hv : Valid H rs retention)
    (hl : rebuild H rs = .ok log) (hf : Found H d file head rs)
    (hr : Kept H d retention) (hJ : Throughout J d file head (image H rs).length) :
    Leads T J (do
      let retention ← readRetention H
      match ← Io.attempt (Disk.openFile .log) with
      | .ok file => openExisting H file retention
      | .error .notFound => openNew H retention
      | .error _ => Io.fail .io) d { log with file, retention }
      (trimmed d file head (image H rs).length) := by
  refine (leads_readRetention hr hv.readable hJ.start).bind ?_
  refine Meets.bind (R := fun x t => t = d ∧ (x = .ok file ∨ CanFail T ∧ x = .error .other)) ?_ ?_
  · apply Meets.attempt
    refine Disk.meets_openFile (fun i hi => ⟨rfl,.inl ?_⟩) (fun hn => ?_)
      (fun hfa => ⟨rfl,.inr ⟨hfa,rfl⟩⟩) (fun hs => ⟨hs,hJ.start⟩)
    · rw [some.inj (hf.logEntry.symm.trans hi)]
    · cases hf.logEntry.symm.trans hn
  · rintro _ _ ⟨rfl,rfl | ⟨hfa,rfl⟩⟩
    · refine (leads_checkHeader ((header_front rs).trans hf.starts) hJ.start).bind ?_
      refine ((leads_replayPublished hv hl hf hJ).supply fun _ => id).bind ?_
      exact Leads.pure _ _
    · exact Meets.fail ⟨hfa,hJ.start⟩

lemma Found.inode_trimmed (hf : Found H d file head rs) :
    (trimmed d file head (image H rs).length).inode file = ⟨image H rs,none⟩ ∧
      (trimmed d file head (image H rs).length).inode head = ⟨headOf H rs,none⟩ := by
  have hl : file < d.inodes.length := d.entry_lt _ _ hf.logEntry
  have hh : head < d.inodes.length := d.entry_lt _ _ hf.headEntry
  constructor
  · change Disk.inode (Disk.alter _ _ _) file = _
    rw [Disk.inode_alter_ne _ _ (Ne.symm hf.apart),Disk.inode_alter _ _ (by simpa using hl),
      Disk.inode_alter _ _ hl]
    exact Inode.setLen_sync hf.starts
  · change Disk.inode (Disk.alter _ _ _) head = _
    rw [Disk.inode_alter _ _ (by simpa using hh),Disk.inode_alter_ne _ _ hf.apart,
      Disk.inode_alter_ne _ _ hf.apart,Inode.sync,hf.published]

lemma CalmBy.throughout (h : CalmBy H loss d K P) (hf : d.entry .log = some file)
    (hfr : K file = .front (image H rs))
    (hh : K head = .exact (headOf H rs)) :
    Throughout (fun t => CalmBy H loss t K P) d file head (image H rs).length := by
  have hl : file < d.inodes.length := d.entry_lt _ _ hf
  have hk := h.honors.kept file
  rw [hfr] at hk
  have hc := hk.setLen (Nat.le_refl _)
  have h1 : CalmBy H loss (d.alter file (·.setLen (image H rs).length)) K P := h.alter (hfr ▸ hc)
  have h2 : CalmBy H loss ((d.alter file (·.setLen (image H rs).length)).alter file
      (·.sync)) K P := by
    refine h1.alter ?_
    rw [hfr,Disk.inode_alter _ _ hl]
    exact hc.sync
  have hn := h2.honors.kept head
  rw [hh] at hn
  have h3 : CalmBy H loss (((d.alter file (·.setLen (image H rs).length)).alter file
      (·.sync)).alter head (·.sync)) K P := by
    refine h2.alter ?_
    rw [hh]
    exact congrArg Inode.sync hn
  exact ⟨h,h1,h2,h3,h3.settle⟩

/-- Opening finds one of the logs that may be there. Until it returns, they all may still be. -/
lemma meets_openLog (h : Calm H loss d P) : Meets T (openLog H) d
      ⟨fun log d' => ∃ rs, P rs log.retention ∧ Live H loss d' log rs ∧
          log.policy = .disabled,
        fun _ d' => CanFail T ∧ Calm H loss d' P,
        fun d' => CanStop T ∧ Calm H loss d' P⟩ := by
  obtain ⟨K,h⟩ := h
  refine (meets_finishCompaction h).bind fun _ d1 h1 => ?_
  obtain ⟨rs,retention,file,hP,hva,hp,hfi,hpl⟩ := h1.top
  obtain ⟨head,hh,he⟩ := hp.head
  obtain ⟨log,hl,-⟩ := hva.rebuilt
  have hfr := h1.honors.kept file
  rw [hpl] at hfr
  have hn := h1.honors.kept head
  rw [he] at hn
  have hf : Found H d1 file head rs := by
    refine ⟨hfi,hh,fun heq => ?_,hfr.starts,congrArg Inode.content hn⟩
    rw [heq,hpl] at he
    cases he
  have hJ := h1.throughout hfi hpl he
  refine Meets.mono (leads_openFound hva hl hf (hp.retain.kept h1.honors) hJ) ?_
    (fun _ t ht => ⟨ht.1,K,ht.2⟩) (fun t ht => ⟨ht.1,K,ht.2⟩)
  rintro _ _ ⟨rfl,rfl⟩
  have hc := core_of_rebuild hl
  have hs := hJ.settled
  refine ⟨rs,hP,⟨?_,hva,K,⟨⟨hs.honors,hs.untorn,hpl,?_⟩,
    hf.inode_trimmed.1⟩⟩,congrArg AppendOnlyStorage.policy hc.symm⟩
  · rw [hl,← hc]
    rfl
  · intro v hv
    obtain rfl := Disk.MayShow.settle hv
    exact ⟨hfi,hp,(hs.views _ (Disk.mayShow_entry _ _)).1⟩

end Reading

lemma leads_removeAbsent {J : LogDisk → Prop} {n : LogFile} (h : d.entry n = none) (hJ : J d) :
    Leads T J (removeAbsentOk n) d () d := by
  refine Meets.bind (R := fun x t => t = d ∧ (x = .error .notFound ∨ CanFail T ∧ x = .error .other))
    ?_ ?_
  · apply Meets.attempt
    refine Disk.meets_perform (fun _ d' ho => ?_) (fun e he => ?_) (fun hf b _ => ?_) (fun hs b _ => ?_)
    · rw [h] at ho
      cases ho
    · rw [h] at he
      cases he
      exact ⟨rfl,.inl rfl⟩
    · rw [h,isSome_none,Bool.and_false]
      exact ⟨rfl,.inr ⟨hf,rfl⟩⟩
    · rw [h,isSome_none,Bool.and_false]
      exact ⟨hs,hJ⟩
  · rintro _ _ ⟨rfl,rfl | ⟨hf,rfl⟩⟩
    · exact Leads.pure _ _
    · exact Meets.fail ⟨hf,hJ⟩

def firstHead (H : Hasher) : Bytes := headBytes H headerSize (initialTip H)

lemma leads_publishFirst {log : AppendOnlyStorage} (h : d.entry .pending = none) :
    Leads T (fun _ => True) (publishFirst H) (d,log) ()
      (((d.addFile .pending (firstHead H)).move .pending .head).settle,log) := by
  refine ((leads_removeAbsent h trivial).outer fun _ => id).bind ?_
  refine ((leads_writeNewSynced _ true h fun _ _ => trivial).outer fun _ => id).bind ?_
  have he : (d.addFile .pending (firstHead H)).entry .pending = some d.inodes.length := by
    simp
  refine (((Disk.leads_rename he trivial trivial).failingAs _).outer fun _ => id).bind ?_
  refine Meets.bind (R := fun x t => (x = .ok () ∧
    t = (((d.addFile .pending (firstHead H)).move .pending .head).settle,log)) ∨
      (CanFail T ∧ ∃ e, x = .error e)) ?_ ?_
  · apply Meets.attempt
    exact Meets.mono ((Disk.leads_syncDir trivial trivial).outer fun _ => id)
      (fun _ _ ht => .inl ⟨by rw [ht.1],ht.2⟩) (fun e _ ht => .inr ⟨ht.1,e,rfl⟩) (fun _ => id)
  · rintro _ t (⟨rfl,rfl⟩ | ⟨hf,e,rfl⟩)
    · exact Leads.pure _ _
    · exact meets_update (Meets.fail ⟨hf,trivial⟩)

def freshDisk (H : Hasher) : LogDisk :=
  (((Disk.empty.link .log).alter 0 (·.write 0 logMagic)).alter 0
    (·.write 8 (initialTip H).1)).alter 0 (·.sync)

def createdDisk (H : Hasher) : LogDisk :=
  (((freshDisk H).addFile .pending (firstHead H)).move .pending .head).settle

lemma leads_createLog : Leads T (fun _ => True) (createLog H none) Disk.empty
    (unread H 0 none) (createdDisk H) := by
  refine ((Disk.leads_create rfl trivial trivial).failingAs _).bind ?_
  refine Leads.bind (((Disk.leads_writeAt fun _ => trivial).failingAs _).bind
    ((Disk.leads_writeAt fun _ => trivial).failingAs _)) ?_
  refine ((Disk.leads_syncAll trivial trivial).failingAs _).bind ?_
  refine ((leads_publishFirst (d := freshDisk H) rfl).supply fun _ => id).bind ?_
  exact Leads.pure _ _

lemma holds_created : Holds H loss (createdDisk H) 0 [] none := by
  have hl : (createdDisk H).inode 0 = ⟨image H [],none⟩ := by
    change (⟨overwrite (overwrite [] 0 logMagic) 8 (initialTip H).1,none⟩ : Inode) = _
    rw [image,framesFrom,append_nil,header]
    exact congrArg (Inode.mk · none) (overwrite_end logMagic _)
  have hh : (createdDisk H).inode 1 = ⟨headOf H [],none⟩ := by
    rw [headOf,length_image_nil]
    exact Disk.inode_addFile (d := freshDisk H) (n := .pending)
  have hf : (createdDisk H).Honors fun _ => .free := ⟨fun _ => trivial,fun _ _ => rfl⟩
  have hk : ((createdDisk H).inode 0).Honors (.front (image H [])) := by
    rw [hl]
    exact Inode.keeps_self _
  have he : ((createdDisk H).inode 1).Honors (.exact (headOf H [])) := hh
  have hho := (hf.update Nat.zero_lt_two hk).update Nat.one_lt_two he
  refine ⟨_,⟨⟨hho,fun _ i bs => ?_,rfl,?_⟩,hl⟩⟩
  · simp only [Function.update_apply]
    split
    · exact Inode.Pledge.noConfusion
    · split <;> exact Inode.Pledge.noConfusion
  · intro v hv
    obtain rfl := Disk.MayShow.settle hv
    refine ⟨rfl,⟨⟨0,_,rfl,rfl,prefix_refl _⟩,⟨1,rfl,rfl⟩,rfl⟩,fun _ hs => ?_⟩
    cases hs

lemma leads_finishNothing {J : LogDisk → Prop} (hc : d.entry .compact = none)
    (hsw : d.entry .swap = none) (hr : d.entry .retainPending = none) (hJ : J d) :
    Leads T J (finishCompaction H) d () d := by
  refine Meets.bind (R := fun x t => t = d ∧ ∃ e, x = .error e) ?_ ?_
  · apply Meets.attempt
    refine Meets.bind (R := fun _ _ => False) (Meets.failingAs (Disk.meets_openFile
      (fun i hi => nomatch hsw.symm.trans hi) (fun _ => ⟨rfl,_,rfl⟩) (fun _ => ⟨rfl,_,rfl⟩)
      (fun hs => ⟨hs,hJ⟩))) fun _ _ => False.elim
  · rintro _ _ ⟨rfl,e,rfl⟩
    exact (leads_removeAbsent hc hJ).bind ((leads_removeAbsent hsw hJ).bind (leads_removeAbsent hr hJ))

lemma leads_firstOpen : Leads T (fun _ => True) (openLog H) Disk.empty
    (unread H 0 none) (createdDisk H) := by
  refine (leads_finishNothing rfl rfl rfl trivial).bind ?_
  have hr : Leads T (fun _ => True) (readRetention H) Disk.empty none Disk.empty :=
    leads_readRetention rfl (fun _ h => nomatch h) trivial
  refine hr.bind ?_
  refine Meets.bind (R := fun x t => t = Disk.empty ∧
    (x = .error .notFound ∨ CanFail T ∧ x = .error .other)) ?_ ?_
  · apply Meets.attempt
    exact Disk.meets_openFile (fun i hi => nomatch hi) (fun _ => ⟨rfl,.inl rfl⟩)
      (fun hf => ⟨rfl,.inr ⟨hf,rfl⟩⟩) (fun hs => ⟨hs,trivial⟩)
  · rintro _ _ ⟨rfl,rfl | ⟨hf,rfl⟩⟩
    · refine Meets.bind (R := fun x t => t = Disk.empty ∧
        (x = .error .notFound ∨ CanFail T ∧ x = .error .other)) ?_ ?_
      · apply Meets.attempt
        exact Disk.meets_metadata (fun i hi => nomatch hi) (fun _ => ⟨rfl,.inl rfl⟩)
          (fun hf => ⟨rfl,.inr ⟨hf,rfl⟩⟩) (fun hs => ⟨hs,trivial⟩)
      · rintro _ _ ⟨rfl,rfl | ⟨hf,rfl⟩⟩
        · exact leads_createLog
        · exact Meets.fail ⟨hf,trivial⟩
    · exact Meets.fail ⟨hf,trivial⟩

lemma live_created : Live H loss (createdDisk H) (unread H 0 none) [] := by
  refine ⟨rfl,⟨fun _ h => (not_mem_nil h).elim,?_,fun _ => (nomatch ·),_,rfl,rfl⟩, holds_created⟩
  rw [length_image_nil]
  decide

end Astrolune.Storage
