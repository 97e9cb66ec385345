import Astrolune.Storage.Views

namespace Astrolune.Storage
open Lib Codec State AppendOnlyStorage List Function

variable {H : Hasher} {T : Turn → Prop} {loss : Loss} {d : LogDisk}

section Memory

variable {α : Type} {s : LogState} {Q : Post LogState StorageError α}

lemma meets_self {f : AppendOnlyStorage → LogIo α} (h : Meets T (f s.2) s Q) :
    Meets T (self >>= f) s Q := by
  refine Meets.bind (R := fun l t => l = s.2 ∧ t = s) (Meets.read ⟨rfl,rfl⟩) ?_
  rintro _ _ ⟨rfl,rfl⟩
  exact h

variable {f : Unit → LogIo α}

lemma meets_update {g : AppendOnlyStorage → AppendOnlyStorage}
    (h : Meets T (f ()) (s.1,g s.2) Q) : Meets T (update g >>= f) s Q := by
  refine Meets.bind (R := fun _ t => t = (s.1,g s.2)) (Meets.modify rfl) ?_
  rintro _ _ rfl
  exact h

lemma meets_give {β : Type} {x : Except StorageError β} {f : β → LogIo α}
    (ho : ∀ b, x = .ok b → Meets T (f b) s Q) (he : ∀ e, x = .error e → Q.error e s) :
    Meets T (Io.give x >>= f) s Q := by
  refine Meets.bind (R := fun b t => x = .ok b ∧ t = s) (Meets.give (fun b hb => ⟨hb,rfl⟩) he) ?_
  rintro b _ ⟨hb,rfl⟩
  exact ho b hb

lemma meets_ready (h : s.2.poisoned = false) (hf : Meets T (f ()) s Q) :
    Meets T (ready >>= f) s Q :=
  Meets.bind (R := fun _ t => t = s) (meets_self (Meets.give_ok (ensure_of h) rfl))
    fun _ _ ht => ht ▸ hf

lemma meets_poisonUnless {p : Prop} [Decidable p] (h : p)
    (hf : Meets T (f ()) s Q) : Meets T (poisonUnless p >>= f) s Q := by
  rw [poisonUnless,if_pos h]
  exact Meets.bind (R := fun _ t => t = s) (Meets.pure rfl) fun _ _ ht => ht ▸ hf

end Memory

lemma meets_removeAbsentOk {n : LogFile} {Q : Post LogDisk StorageError Unit}
    (hk : d.entry n = none → Q.ok () d) (hg : Q.ok () (d.unlink n))
    (hfa : CanFail T → Q.error .io d ∧ Q.error .io (d.unlink n))
    (hs : CanStop T → Q.stopped d ∧ Q.stopped (d.unlink n)) :
    Meets T (removeAbsentOk n) d Q := by
  refine Meets.attemptThen (fun _ d' => d' = d.unlink n)
    (fun e d' => e = .notFound ∧ d' = d ∧ d.entry n = none ∨ e = .other ∧ Q.error .io d') ?_ ?_ ?_
  · exact Disk.meets_remove rfl (fun hn => .inl ⟨rfl,rfl,hn⟩)
      (fun hf => ⟨.inr ⟨rfl,(hfa hf).1⟩,.inr ⟨rfl,(hfa hf).2⟩⟩) hs
  · rintro _ _ rfl
    exact Meets.pure hg
  · rintro _ d' (⟨rfl,rfl,hn⟩ | ⟨rfl,he⟩)
    · exact Meets.pure (hk hn)
    · exact Meets.fail he

lemma meets_clear {n : LogFile} {scratch : LogFile → Prop} (hn : scratch n) (ord : Bool) :
    Meets T (removeAbsentOk n) d ⟨fun _ d' => d'.entry n = none ∧ Disk.Within ord scratch d d',
        fun _ d' => CanFail T ∧ Disk.Within ord scratch d d',
        fun d' => CanStop T ∧ Disk.Within ord scratch d d'⟩ := by
  have hsa := Disk.Within.refl ord scratch d
  have hg := hsa.unlink hn
  exact meets_removeAbsentOk (fun hno => ⟨hno,hsa⟩) ⟨by simp,hg⟩
    (fun hf => ⟨⟨hf,hsa⟩,hf,hg⟩) (fun hs => ⟨⟨hs,hsa⟩,hs,hg⟩)

lemma leads_writeNewSynced {J : LogDisk → Prop} {n : LogFile} (bs : Bytes) (ord : Bool)
    (hf : d.entry n = none) (hJ : ∀ d', Disk.Within ord (· = n) d d' → J d') :
    Leads T J (writeNewSynced n bs) d () (d.addFile n bs) := by
  have hs := Disk.Within.refl ord (· = n) d
  have hl := hs.link rfl
  refine ((Disk.leads_create hf (hJ _ hs) (hJ _ hl)).failingAs _).bind ?_
  refine ((Disk.leads_writeAt fun k => hJ _ (hl.alter (Nat.le_refl _))).failingAs _).bind ?_
  have hw := hl.alter (f := (·.write 0 bs)) (Nat.le_refl _)
  exact (Disk.leads_syncAll (hJ _ hw) (hJ _ (hw.alter (Nat.le_refl _)))).failingAs _

lemma meets_writeOver {n : LogFile} {bs : Bytes} {i : Nat} (h : d.entry n = some i) :
    Meets T (writeNewSynced n bs) d
      ⟨fun _ _ => False,fun _ d' => d' = d,fun d' => CanStop T ∧ d' = d⟩ := by
  refine Meets.bind (R := fun _ _ => False) (Meets.failingAs (Disk.meets_create (fun hn => ?_)
    (fun _ _ => rfl) (fun _ => ⟨rfl,fun hn => ?_⟩) (fun hs => ⟨⟨hs,rfl⟩,fun hn => ?_⟩)))
    fun _ _ => False.elim
  all_goals
    rw [h] at hn
    cases hn

section Append

variable {K : Pledges} {file : Nat} {rs : List Record} {r : Record}
  {ret : Option RetentionRecord}

lemma meets_writePast {written bs : Bytes} {off : Nat}
    (h : PublishedBy H loss d K file rs ret)
    (hc : (d.inode file).content = image H rs ++ written)
    (ho : off = (image H rs).length + written.length) :
    Meets T (Io.failingAs .io (Disk.writeAt file off bs) : DiskIo Unit) d
      ⟨fun _ d' => PublishedBy H loss d' K file rs ret ∧
          (d'.inode file).content = image H rs ++ (written ++ bs) ∧
          d'.entry = d.entry,
        fun _ d' => CanFail T ∧ PublishedBy H loss d' K file rs ret,
        fun d' => CanStop T ∧ PublishedBy H loss d' K file rs ret⟩ := by
  subst ho
  have hk : ∀ more, PublishedBy H loss (d.alter file
      (·.write ((image H rs).length + written.length) more)) K file rs ret :=
    fun more => h.grow (h.keeps.write (Nat.le_add_right _ _))
  apply Meets.failingAs
  refine Disk.meets_writeAt ⟨hk bs,?_,rfl⟩ (fun hf k => ⟨hf,hk _⟩) (fun hs k => ⟨hs,hk _⟩)
  rw [Disk.inode_alter _ _ h.lt]
  change overwrite (d.inode file).content _ bs = _
  rw [hc,← length_append,overwrite_end,append_assoc]

lemma meets_writeFrame (h : HoldsBy H loss d K file rs ret) :
    Meets T (writeFrame file (image H rs).length (payload H r)
        (frameHash H (tipOf H rs) (payload H r))) d
      ⟨fun _ d' => PublishedBy H loss d' K file rs ret ∧
          (d'.inode file).content = image H (rs ++ [r]) ∧ d'.entry = d.entry,
        fun _ d' => CanFail T ∧ PublishedBy H loss d' K file rs ret,
        fun d' => CanStop T ∧ PublishedBy H loss d' K file rs ret⟩ := by
  have hc : (d.inode file).content = image H rs ++ [] := by
    rw [h.exact,append_nil]
  refine (meets_writePast h.toPublishedBy hc rfl).bind ?_
  rintro _ d1 ⟨h1,hc1,he1⟩
  refine (meets_writePast h1 hc1 (by simp)).bind ?_
  rintro _ d2 ⟨h2,hc2,he2⟩
  refine (meets_writePast h2 hc2 (by simp [Nat.add_assoc])).mono ?_ (fun _ _ => id) (fun _ => id)
  rintro _ d3 ⟨h3,hc3,he3⟩
  refine ⟨h3,?_,he3.trans (he2.trans he1)⟩
  rw [hc3,image_snoc,frame]
  simp only [nil_append,append_assoc]

lemma meets_syncPublished (h : PublishedBy H loss d K file rs ret) :
    Meets T (Disk.syncAll file) d ⟨fun _ d' => PublishedBy H loss d' K file rs ret ∧
          d'.inode file = (d.inode file).sync ∧ d'.entry = d.entry,
        fun _ d' => CanFail T ∧ PublishedBy H loss d' K file rs ret,
        fun d' => CanStop T ∧ PublishedBy H loss d' K file rs ret⟩ := by
  have hsy : PublishedBy H loss (d.alter file (·.sync)) K file rs ret := h.grow h.keeps.sync
  exact Disk.meets_alter ⟨hsy,Disk.inode_alter _ _ h.lt,rfl⟩
    (fun hf => ⟨⟨hf,h⟩,hf,hsy⟩) (fun hs => ⟨⟨hs,h⟩,hs,hsy⟩)

/-- The new head takes the place of the old one. Until that is synced, a power loss may bring back
the old one. -/
lemma PublishedBy.rename (h : PublishedBy H loss d K file rs ret)
    (hf : d.inode file = ⟨image H (rs ++ [r]),none⟩) {p : Nat}
    (hp : d.entry .pending = some p)
    (hn : d.inode p = ⟨headOf H (rs ++ [r]),none⟩) (hfr : K p = .free)
    {P : Finding} (hP : P rs ret)
    (hP' : P (rs ++ [r]) ret)
    (hva : Valid H rs ret) (hv' : Valid H (rs ++ [r]) ret) :
    ∃ K', CalmBy H loss (d.move .pending .head) K' P ∧
      HoldsBy H loss (d.move .pending .head).settle K' file (rs ++ [r]) ret := by
  have hpf : p ≠ file := by
    intro heq
    have hple := h.pledged
    rw [← heq,hfr] at hple
    cases hple
  have hl : image H rs <+: image H (rs ++ [r]) := image_append rs [r]
  let K' := update (update K file (.front (image H (rs ++ [r])))) p (.exact (headOf H (rs ++ [r])))
  have hK'file : K' file = .front (image H (rs ++ [r])) := by
    simp [K',update_of_ne hpf.symm]
  have hmi : update K file (.front (image H (rs ++ [r]))) p = .free := by
    rw [update_of_ne hpf,hfr]
  have hh : (d.move .pending .head).Honors K' := by
    refine Disk.Honors.same (d := d) ?_ (Nat.le_refl _) fun _ _ => rfl
    refine (h.honors.update h.lt ?_).update (d.entry_lt _ _ hp) hn
    rw [hf]
    exact Inode.keeps_self _
  have hun : Untorn loss K' := (h.untorn.update (by simp)).update (by simp)
  have hu : ∀ w, Unmarked K w → Unmarked K' w := fun w hw =>
    (hw.promise (by simp [h.pledged])).promise (by simp [hmi])
  -- What is seen once the rename has happened.
  have hvi : ∀ w, d.MayShow loss.ordered w → ∀ v, v .log = w .log → v .head = some p →
      v .retain = w .retain → v .swap = w .swap →
      v .log = some file ∧ Plain H K' v (rs ++ [r]) ret ∧ Unmarked K' v := by
    intro w hw v hvl hvh hvr hvs
    obtain ⟨hlo,hpl,hm⟩ := h.views w hw
    refine ⟨hvl.trans hlo,⟨⟨file,_,hvl.trans hlo,hK'file,prefix_refl _⟩,
      ⟨p,hvh,update_self _ _ _⟩,?_⟩,(hu w hm).congr hvs⟩
    exact ((hpl.retain.promise (by simp [h.pledged])).promise (by simp [hmi])).congr hvr
  have he := hvi d.entry (Disk.mayShow_entry _ _) (d.move .pending .head).entry
    (by simp) (by simp [hp]) (by simp) (by simp)
  refine ⟨K',⟨hh,hun,fun v hv => ?_,?_⟩,
    ⟨⟨hh.same (Nat.le_refl _) fun _ _ => rfl,hun,hK'file,fun v hv => ?_⟩,hf⟩⟩
  · rcases hv.move with hv | ⟨w,hw,rfl,-⟩
    · obtain ⟨-,hpl,hm⟩ := h.views v hv
      exact ⟨hu v hm,rs,ret,hP,hva,(hpl.extend h.pledged hl).promise hmi⟩
    · obtain ⟨-,hpl,hm⟩ := hvi w hw (update (update w .head
        (d.entry .pending)) .pending none) (by simp) (by simp [hp]) (by simp) (by simp)
      exact ⟨hm,rs ++ [r],ret,hP',hv',hpl⟩
  · exact ⟨rs ++ [r],ret,file,hP',hv',he.2.1,he.1,hK'file⟩
  · obtain rfl := hv.settle
    exact he

def AtMost (records : List Record) (r : Record) (retention : Option RetentionRecord)
    (found : List Record) (found' : Option RetentionRecord) : Prop :=
  (found = records ∨ found = records ++ [r]) ∧ found' = retention

variable {log : AppendOnlyStorage}

/-- How an attempt to publish a record ends. A failure leaves the old records published, or nobody
knows and the log is poisoned. -/
def publishing (H : Hasher) (T : Turn → Prop) (loss : Loss)
    (log : AppendOnlyStorage) (records : List Record) (r : Record) :
    Post LogState StorageError Unit where
  ok _ s := s.2 = log ∧ Holds H loss s.1 log.file (records ++ [r]) log.retention
  error _ s := CanFail T ∧
    ((s.2 = log ∧ Published H loss s.1 log.file records log.retention) ∨
      (s.2 = { log with poisoned := true } ∧ Calm H loss s.1 (AtMost records r log.retention)))
  stopped s := CanStop T ∧ Calm H loss s.1 (AtMost records r log.retention)

lemma meets_publishHead (h : PublishedBy H loss d K log.file rs log.retention)
    (hfi : d.inode log.file = ⟨image H (rs ++ [r]),none⟩)
    (hpe : d.entry .pending = none) (hv : Valid H rs log.retention)
    (hv' : Valid H (rs ++ [r]) log.retention) :
    Meets T (publishHead H (image H (rs ++ [r])).length
      (tipOf H (rs ++ [r]))) (d,log) (publishing H T loss log rs r) := by
  have hc : ∀ {d'}, PublishedBy H loss d' K log.file rs log.retention →
      Calm H loss d' (AtMost rs r log.retention) := fun hp => ⟨K,hp.calm ⟨.inl rfl,rfl⟩ hv⟩
  -- The new head is written under a name that does not matter yet.
  have hne := leads_writeNewSynced (T := T)
    (J := fun d' => PublishedBy H loss d' K log.file rs log.retention)
    (headOf H (rs ++ [r])) loss.ordered hpe
    (fun d' hw => h.within (hw.mono fun n hn => .inl hn))
  refine hne.outer_andThen ?_ (fun e t hf hJ => ⟨hf,.inl ⟨rfl,K,hJ⟩⟩) (fun t hs hJ => ⟨hs,hc hJ⟩)
  have hw : Disk.Within loss.ordered Scratch d (d.addFile .pending (headOf H (rs ++ [r]))) :=
    Disk.within_addFile loss.ordered (.inl rfl)
  have hp := h.within hw
  have he : (d.addFile .pending (headOf H (rs ++ [r]))).entry .pending =
      some d.inodes.length := by simp
  obtain ⟨K',hr,hse⟩ := hp.rename (P := AtMost rs r log.retention)
    ((hw.inode _ h.lt).trans hfi) he Disk.inode_addFile
    (h.honors.absent _ (Nat.le_refl _)) ⟨.inl rfl,rfl⟩ ⟨.inr rfl,rfl⟩ hv hv'
  have hc' : Calm H loss (((d.addFile .pending (headOf H (rs ++ [r]))).move
      .pending .head)) (AtMost rs r log.retention) := ⟨K',hr⟩
  refine Meets.outer_bind (R := fun _ t => t = (d.addFile .pending
    (headOf H (rs ++ [r]))).move .pending .head) (Meets.failingAs ?_) ?_
  · exact Disk.meets_rename he rfl (fun hf => ⟨hf,.inl ⟨rfl,K,hp⟩⟩) (fun hs => ⟨⟨hs,hc hp⟩,hs,hc'⟩)
  rintro _ _ rfl
  -- From here on the new head may be found, so a failure poisons the log.
  refine Meets.attemptThen
    (fun _ s => ∃ t, s = (t,log) ∧ Holds H loss t log.file (rs ++ [r]) log.retention)
    (fun _ s => ∃ t, s = (t,log) ∧ CanFail T ∧ Calm H loss t (AtMost rs r log.retention)) ?_ ?_ ?_
  · apply Meets.outer
    exact Disk.meets_syncDir ⟨_,rfl,K',hse⟩ (fun hf => ⟨⟨_,rfl,hf,hc'⟩,_,rfl,hf,K',hr.settle⟩)
      (fun hs => ⟨⟨hs,hc'⟩,hs,K',hr.settle⟩)
  · rintro _ _ ⟨t,rfl,ht⟩
    exact Meets.pure ⟨rfl,ht⟩
  · rintro _ _ ⟨t,rfl,ht⟩
    exact meets_update (Meets.fail ⟨ht.1,.inr ⟨rfl,ht.2⟩⟩)

lemma meets_writeAndPublish (h : HoldsBy H loss d K log.file rs log.retention)
    (he : log.endOffset = (image H rs).length) (ht : log.tip = tipOf H rs)
    (hpe : d.entry .pending = none) (hv : Valid H rs log.retention)
    (hv' : Valid H (rs ++ [r]) log.retention) :
    Meets T (writeAndPublish H log (payload H r) (image H (rs ++ [r])).length
      (frameHash H log.tip (payload H r))) (d,log)
      (publishing H T loss log rs r) := by
  have hc : ∀ {d'}, PublishedBy H loss d' K log.file rs log.retention →
      Calm H loss d' (AtMost rs r log.retention) := fun hp => ⟨K,hp.calm ⟨.inl rfl,rfl⟩ hv⟩
  have her : ∀ (e : StorageError) d', CanFail T ∧
      PublishedBy H loss d' K log.file rs log.retention →
      (publishing H T loss log rs r).error e (d',log) :=
    fun e d' hp => ⟨hp.1,.inl ⟨rfl,K,hp.2⟩⟩
  have hst : ∀ d', CanStop T ∧ PublishedBy H loss d' K log.file rs log.retention →
      (publishing H T loss log rs r).stopped (d',log) :=
    fun d' hp => ⟨hp.1,hc hp.2⟩
  have hse := (Disk.leads_seek (T := T)
    (J := fun d' => PublishedBy H loss d' K log.file rs log.retention)
    h.toPublishedBy).failingAs StorageError.io
  refine hse.outer_andThen ?_ (fun e t hf hJ => her e t ⟨hf,hJ⟩) (fun t hs hJ => hst t ⟨hs,hJ⟩)
  rw [he,ht]
  refine Meets.outer_bind ((meets_writeFrame h).mono (fun _ _ => id) her hst) ?_
  rintro _ d1 ⟨h1,hc1,he1⟩
  refine Meets.outer_bind (Meets.failingAs ((meets_syncPublished h1).mono (fun _ _ => id)
    (fun e => her .io) hst)) ?_
  rintro _ d2 ⟨h2,hc2,he2⟩
  rw [← tipOf_snoc]
  refine meets_publishHead h2 ?_ (by rw [he2,he1,hpe]) hv hv'
  rw [hc2,Inode.sync,hc1]

lemma meets_rollback {e : StorageError} (hcl : log.poisoned = false)
    (he : log.endOffset = (image H rs).length)
    (h : PublishedBy H loss d K log.file rs log.retention)
    (hv : Valid H rs log.retention) :
    Meets T (rollback e) (d,log) ⟨fun _ _ => False,
        fun e' s => (s.2 = log ∧ Holds H loss s.1 log.file rs log.retention) ∨
          (CanFail T ∧ e' = .durabilityUnknown ∧ s.2 = { log with poisoned := true } ∧
            Calm H loss s.1 (AtMost rs r log.retention)),
        fun s => CanStop T ∧ Calm H loss s.1 (AtMost rs r log.retention)⟩ := by
  have hc : ∀ {d'}, PublishedBy H loss d' K log.file rs log.retention →
      Calm H loss d' (AtMost rs r log.retention) := fun hp => ⟨K,hp.calm ⟨.inl rfl,rfl⟩ hv⟩
  have hcu : PublishedBy H loss (d.alter log.file (·.setLen log.endOffset)) K log.file
      rs log.retention := h.grow (h.keeps.setLen (Nat.le_of_eq he.symm))
  apply meets_self
  rw [hcl]
  refine Meets.attemptThen
    (fun _ s => ∃ t, s = (t,log) ∧ HoldsBy H loss t K log.file rs log.retention)
    (fun _ s => ∃ t, s = (t,log) ∧ CanFail T ∧ Calm H loss t (AtMost rs r log.retention)) ?_ ?_ ?_
  · apply Meets.outer
    refine Meets.bind (R := fun _ t => t = d.alter log.file (·.setLen log.endOffset))
      (Disk.meets_alter rfl (fun hf => ⟨⟨_,rfl,hf,hc h⟩,_,rfl,hf,hc hcu⟩)
        (fun hs => ⟨⟨hs,hc h⟩,hs,hc hcu⟩)) ?_
    rintro _ _ rfl
    refine (meets_syncPublished hcu).mono ?_ (fun _ t ht => ⟨_,rfl,ht.1,hc ht.2⟩)
      (fun t ht => ⟨ht.1,hc ht.2⟩)
    rintro _ t ⟨ht,hex,-⟩
    refine ⟨t,rfl,ht,?_⟩
    rw [hex,Disk.inode_alter _ _ h.lt,he]
    exact Inode.setLen_sync h.keeps.starts
  · rintro _ _ ⟨t,rfl,ht⟩
    exact Meets.fail (.inl ⟨rfl,K,ht⟩)
  · rintro _ _ ⟨t,rfl,ht⟩
    exact meets_update (Meets.fail (.inr ⟨ht.1,rfl,rfl,ht.2⟩))

lemma Live.follows (h : Live H loss d log rs) : Follows H rs log.core :=
  follows_of_rebuild h.rebuilt

lemma Live.clean (h : Live H loss d log rs) : log.poisoned = false := h.follows.poisoned

lemma anchor_of_replay {next : AppendOnlyStorage} (hf : Follows H rs log)
    (hn : log.replay H r = .ok next) {a : Checkpoint} (ha : log.anchor = some a) :
    next.anchor = some a := by
  obtain ⟨cp,st,-,rfl⟩ := replay_eq_ok.mp hn
  have hs : log.checkpoint.isSome = true := by rw [← hf.anchored,ha]; rfl
  simp only [replayed,ha]
  rw [if_neg (by simpa [Option.isSome_iff_ne_none] using hs)]

lemma Valid.snoc {next : AppendOnlyStorage} (h : Valid H rs ret)
    (hl : rebuild H rs = .ok log) (hr : Written H r)
    (hf : (image H (rs ++ [r])).length < 2 ^ 64)
    (hn : log.replay H r = .ok next) : Valid H (rs ++ [r]) ret := by
  refine ⟨fun x hx => ?_,hf,h.readable,next,rebuild_snoc.mpr ⟨log,hl,hn⟩,?_⟩
  · rcases mem_append.mp hx with hx | hx
    · exact h.written x hx
    · obtain rfl := mem_singleton.mp hx
      exact hr
  · obtain ⟨log',hl',hc⟩ := h.rebuilt
    rw [hl] at hl'
    cases hl'
    cases ret with
    | none => rfl
    | some rec =>
      cases ha : log.anchor with
      | none =>
        simp only [checkRetention,ha] at hc
        cases hc
      | some a =>
        simp only [checkRetention,ha] at hc
        simp only [checkRetention,anchor_of_replay (follows_of_rebuild hl) hn ha]
        exact hc

/-- How an append ends: with the record published, with nothing changed, or poisoned. -/
def appending (H : Hasher) (T : Turn → Prop) (loss : Loss)
    (log : AppendOnlyStorage) (records : List Record) (r : Record) :
    Post LogState StorageError Location where
  ok loc s := loc = log.nextLocation H r ∧
    s.2 = { log with endOffset := loc.endOffset, tip := loc.hash } ∧
    Holds H loss s.1 log.file (records ++ [r]) log.retention ∧
    Valid H (records ++ [r]) log.retention
  error e s := (s.2 = log ∧ Holds H loss s.1 log.file records log.retention) ∨
    (CanFail T ∧ e = .durabilityUnknown ∧ s.2 = { log with poisoned := true } ∧
      Calm H loss s.1 (AtMost records r log.retention))
  stopped s := CanStop T ∧ Calm H loss s.1 (AtMost records r log.retention)

lemma meets_append {next : AppendOnlyStorage} (h : Live H loss d log rs)
    (hr : Written H r) (hne : log.replay H r = .ok next) :
    Meets T (append H (payload H r)) (d,log) (appending H T loss log rs r) := by
  obtain ⟨K,hh⟩ := h.holds
  have he : log.endOffset = (image H rs).length := h.follows.endOffset
  have hti : log.tip = tipOf H rs := h.follows.tip
  have hc : ∀ {d'}, PublishedBy H loss d' K log.file rs log.retention →
      Calm H loss d' (AtMost rs r log.retention) := fun hp => ⟨K,hp.calm ⟨.inl rfl,rfl⟩ h.valid⟩
  apply meets_ready h.clean
  refine Meets.outer_bind ((meets_clear (n := .pending) (.inl rfl) loss.ordered).mono
    (fun _ _ => id) (fun _ t ht => .inl ⟨rfl,K,hh.within ht.2⟩)
    (fun t ht => ⟨ht.1,hc (hh.within ht.2).toPublishedBy⟩)) ?_
  rintro _ d1 ⟨hfr,hw⟩
  have h1 := hh.within hw
  obtain ⟨j,hj,hjn⟩ := h1.head
  apply meets_self
  have hle := (Disk.leads_fileLength (T := T) (J := fun t => t = d1) (i := log.file)
    rfl).failingAs StorageError.io
  refine hle.outer_andThen ?_ (fun e t _ ht => .inl ⟨rfl,K,ht ▸ h1⟩)
    (fun t hs ht => ⟨hs,hc (ht ▸ h1.toPublishedBy)⟩)
  apply meets_poisonUnless (by rw [h1.exact,he])
  have hre : Leads T (fun t => t = d1) (readHeadAt H .head) d1 _ d1 :=
    leads_readHeadAt hj (congrArg Inode.content hjn) h.valid.fits rfl
  refine hre.outer_andThen ?_ (fun e t _ ht => .inl ⟨rfl,K,ht ▸ h1⟩)
    (fun t hs ht => ⟨hs,hc (ht ▸ h1.toPublishedBy)⟩)
  apply meets_poisonUnless (by rw [he,hti])
  refine meets_give (fun endOffset ha => ?_) (fun e _ => .inl ⟨rfl,K,h1⟩)
  simp only [okOr_eq_ok,checkedAdd64_eq_some] at ha
  obtain ⟨rfl,hro⟩ := ha
  have hn : log.endOffset + (frameOverhead + (payload H r).length) =
      (image H (rs ++ [r])).length := by
    rw [length_image_snoc,he,Nat.add_comm frameOverhead]
  have hlo : log.nextLocation H r = ⟨log.endOffset,(image H (rs ++ [r])).length,
      log.tip,frameHash H log.tip (payload H r)⟩ := by
    rw [nextLocation,← hn,Nat.add_comm frameOverhead,Nat.add_assoc]
  have hv' := h.valid.snoc h.rebuilt hr (hn ▸ hro) (replay_core hne)
  rw [hn]
  refine Meets.attemptThen _ _ ((meets_writeAndPublish h1 he hti hfr h.valid hv').mono
    (fun _ _ => id) (fun _ _ => id) (fun _ => id)) ?_ ?_
  · rintro _ ⟨t,l⟩ ⟨hl,ht⟩
    obtain rfl : l = log := hl
    apply meets_update
    exact Meets.pure ⟨hlo.symm,rfl,ht,hv'⟩
  · rintro e ⟨t,l⟩ ⟨hf,⟨hl,K',ht⟩ | ⟨hl,ht⟩⟩
    · obtain rfl : l = log := hl
      exact (meets_rollback h.clean he ht h.valid).mono (fun _ _ => False.elim) (fun _ _ => id)
        (fun _ => id)
    · obtain rfl : l = { log with poisoned := true } := hl
      apply meets_self
      exact Meets.fail (.inr ⟨hf,rfl,rfl,ht⟩)

end Append
end Astrolune.Storage
