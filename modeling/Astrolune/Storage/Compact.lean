import Astrolune.Storage.Replace
import Astrolune.Storage.Resume

namespace Astrolune.Storage
open Lib Codec State AppendOnlyStorage List Function

def inOrder : Loss := ⟨true, false⟩

variable {H : Hasher} {T : Turn → Prop} {d : LogDisk} {K : Pledges} {file : Nat}
  {old rs : List Record} {retention : Option RetentionRecord} {rec : RetentionRecord}

def OldOrNew (old : List Record) (retention : Option RetentionRecord) (records : List Record)
    (record : RetentionRecord) (found : List Record) (found' : Option RetentionRecord) : Prop :=
  (found = old ∧ found' = retention) ∨ (found = records ∧ found' = some record)

/-- A log with its complete replacement, up to the marker. Nothing is left to sync. -/
structure Prepared (H : Hasher) (d : LogDisk) (K : Pledges) (file : Nat)
    (old : List Record) (retention : Option RetentionRecord) (new : Nat) (records : List Record)
    (record : RetentionRecord) : Prop where
  holds : HoldsBy H inOrder d K file old retention
  settled : ∀ v, d.MayShow true v → v = d.entry
  compact : d.entry .compact = some new
  log : K new = .front (image H records)
  exact : d.inode new = ⟨image H records, none⟩
  retain : ∃ j, d.entry .retainPending = some j ∧ K j = .exact (record.toBytes H)

section Marker

variable {new : Nat} {f : Inode → Inode}

lemma Prepared.staged {K' : Pledges} {v : Directory LogFile} {marker : Nat}
    (h : Prepared H d K file old retention new rs rec)
    (hK : ∀ i < d.inodes.length, K' i = K i) (hs : v .swap = some marker)
    (hc : v .compact = d.entry .compact) (hr : v .retainPending = d.entry .retainPending) :
    Staged H K' v rs rec marker := by
  obtain ⟨j,hj,he⟩ := h.retain
  refine ⟨hs,⟨new,.inl (hc.trans h.compact),?_⟩,⟨j,.inl (hr.trans hj),?_⟩⟩
  · rw [hK _ (d.entry_lt _ _ h.compact),h.log]
  · rw [hK _ (d.entry_lt _ _ hj),he]

lemma Prepared.marking (h : Prepared H d K file old retention new rs rec) (ho : Valid H old retention)
    (hva : Valid H rs (some rec))
    (hf : (f Inode.fresh).content <+: headOf H rs) :
    ∃ K', SafeBy H inOrder ((d.link .swap).alter d.inodes.length f) K'
      (OldOrNew old retention rs rec) := by
  have hfr : K d.inodes.length = .free := h.holds.honors.absent _ (Nat.le_refl _)
  have hl := (Disk.Within.refl inOrder.ordered (· = LogFile.swap) d).link rfl
  refine ⟨update K d.inodes.length (.part (headOf H rs)),?_,by simp [Untorn,inOrder],
    ?_⟩
  · refine Disk.Honors.update (h.holds.honors.within (hl.alter (Nat.le_refl _))) (by simp) ?_
    rw [Disk.inode_alter _ _ (by simp),Disk.inode_link_new]
    exact hf
  · intro v hv
    rcases Disk.MayShow.link hv.alter with hv | ⟨w,hw,rfl,-⟩
    · obtain ⟨-,hp,hu⟩ := h.holds.views v hv
      exact .plain (.inl ⟨rfl,rfl⟩) ho (hp.promise hfr) (hu.promise (by simp [hfr]))
    · obtain ⟨-,hp,-⟩ := h.holds.views w hw
      obtain rfl := h.settled w hw
      refine .undecided (.inl ⟨rfl,rfl⟩) ho ?_ (.inr ⟨rfl,rfl⟩) hva ?_ (update_self _ _ _)
      · exact (hp.promise hfr).congr (by simp) (by simp) (by simp)
      · refine h.staged (fun i hi => update_of_ne (Nat.ne_of_lt hi) _ _) (by simp) (by simp) (by simp)

lemma Prepared.unmarked (h : Prepared H d K file old retention new rs rec)
    (hf : (f Inode.fresh).content.length < headBytesLength) :
    Holds H inOrder ((d.link .swap).alter d.inodes.length f) file old retention := by
  have hfr : K d.inodes.length = .free := h.holds.honors.absent _ (Nat.le_refl _)
  have hl := ((Disk.Within.refl inOrder.ordered (· = LogFile.swap) d).link rfl).alter
    (f := f) (Nat.le_refl _)
  have hno : ((d.link .swap).alter d.inodes.length f).inode d.inodes.length = f Inode.fresh := by
    rw [Disk.inode_alter _ _ (by simp),Disk.inode_link_new]
  have hpl : K file = .front (image H old) := h.holds.pledged
  have hn : file ≠ d.inodes.length := fun heq => by rw [heq,hfr] at hpl; cases hpl
  refine ⟨update K d.inodes.length (.part (f Inode.fresh).content),⟨⟨?_,?_,?_,?_⟩,?_⟩⟩
  · refine (h.holds.honors.within hl).update (by simp) ?_
    rw [hno]
    exact prefix_refl _
  · simp [Untorn,inOrder]
  · rw [update_of_ne hn,hpl]
  · intro v hv
    rcases Disk.MayShow.link hv.alter with hv | ⟨w,hw,rfl,-⟩
    · obtain ⟨hlo,hp,hu⟩ := h.holds.views v hv
      exact ⟨hlo,hp.promise hfr,hu.promise (by simp [hfr])⟩
    · obtain ⟨hlo,hp,-⟩ := h.holds.views w hw
      refine ⟨by simpa using hlo,(hp.promise hfr).congr (by simp) (by simp) (by simp), fun s hs => ?_⟩
      rw [update_self] at hs
      rw [← Option.some.inj hs,update_self]
      exact ⟨_,rfl,hf⟩
  · rw [hl.inode file h.holds.lt]
    exact h.holds.exact

/-- A log with its complete replacement and the marker for it. Nothing is left to sync. -/
structure Complete (H : Hasher) (d : LogDisk) (K : Pledges) (new : Nat)
    (records : List Record) (record : RetentionRecord) (marker : Nat) : Prop where
  honors : d.Honors K
  settled : ∀ v, d.MayShow true v → v = d.entry
  compact : d.entry .compact = some new
  log : K new = .front (image H records)
  exact : d.inode new = ⟨image H records, none⟩
  retain : ∃ j, d.entry .retainPending = some j ∧ K j = .exact (record.toBytes H)
  swap : d.entry .swap = some marker
  published : K marker = .exact (headOf H records)

lemma Prepared.complete (h : Prepared H d K file old retention new rs rec) :
    Complete H (d.addFile .swap (headOf H rs)).settle
      (update K d.inodes.length (.exact (headOf H rs))) new rs rec
      d.inodes.length := by
  obtain ⟨j,hj,he⟩ := h.retain
  have ha : Disk.Within true (· = LogFile.swap) d (d.addFile .swap (headOf H rs)) :=
    Disk.within_addFile true rfl
  have hw := ha.settle
  refine ⟨?_,fun v hv => hv.settle,?_,?_,?_,⟨j,?_,?_⟩,?_,update_self _ _ _⟩
  · refine (h.holds.honors.within hw).update (by simp) ?_
    exact Disk.inode_addFile
  · rw [hw.entry _ (by decide),h.compact]
  · rw [update_of_ne (Nat.ne_of_lt (d.entry_lt _ _ h.compact)),h.log]
  · rw [hw.inode _ (d.entry_lt _ _ h.compact),h.exact]
  · rw [hw.entry _ (by decide),hj]
  · rw [update_of_ne (Nat.ne_of_lt (d.entry_lt _ _ hj)),he]
  · simp

end Marker

lemma SafeBy.move {P : Finding} {a b : LogFile}
    (h : SafeBy H inOrder d K P) (hc : Covered H K (d.move a b).entry P) :
    SafeBy H inOrder (d.move a b) K P := by
  refine ⟨h.honors.same (Nat.le_refl _) fun _ _ => rfl,h.untorn,fun v hv => ?_⟩
  rcases hv.move with hv | ⟨w,-,rfl,hl⟩
  · exact h.views v hv
  · rw [hl rfl,← Disk.entry_move]
    exact hc

section Renames

variable {new marker : Nat}

def Only (records : List Record) (record : RetentionRecord) (found : List Record)
    (found' : Option RetentionRecord) : Prop := found = records ∧ found' = some record

lemma Complete.safeBy (h : Complete H d K new rs rec marker) (hva : Valid H rs (some rec)) :
    SafeBy H inOrder d K (Only rs rec) := by
  obtain ⟨j,hj,he⟩ := h.retain
  refine ⟨h.honors,by simp [Untorn,inOrder],fun v hv => ?_⟩
  obtain rfl := h.settled v hv
  exact .swapping ⟨rfl,rfl⟩ hva ⟨h.swap,⟨new,.inl h.compact,h.log⟩,⟨j,.inl hj,he⟩⟩ h.published

lemma meets_swapFiles (h : Complete H d K new rs rec marker) (hva : Valid H rs (some rec)) :
    Meets T swapFiles d ⟨fun _ d' => Holds H inOrder d' new rs (some rec),
        fun _ d' => CanFail T ∧ Safe H inOrder d' (Only rs rec),
        fun d' => CanStop T ∧ Safe H inOrder d' (Only rs rec)⟩ := by
  obtain ⟨j,hj,he⟩ := h.retain
  have h0 := h.safeBy hva
  have h1 : SafeBy H inOrder (d.move .compact .log) K (Only rs rec) := by
    refine h0.move (.swapping ⟨rfl,rfl⟩ hva ⟨?_,⟨new,.inr ⟨?_,?_⟩,h.log⟩,⟨j,.inl ?_,he⟩⟩
      h.published)
    · simpa using h.swap
    · simp
    · simpa using h.compact
    · simpa using hj
  have h2 : SafeBy H inOrder ((d.move .compact .log).move .retainPending .retain) K
      (Only rs rec) := by
    refine h1.move (.swapping ⟨rfl,rfl⟩ hva ⟨?_,⟨new,.inr ⟨?_,?_⟩,h.log⟩,
      ⟨j,.inr ⟨?_,?_⟩,he⟩⟩ h.published)
    · simpa using h.swap
    · simp
    · simpa using h.compact
    · simp
    · simpa using hj
  have hp : Plain H K (((d.move .compact .log).move .retainPending .retain).move .swap
      .head).entry rs (some rec) := by
    refine ⟨⟨new,_,?_,h.log,prefix_refl _⟩,⟨marker,?_,h.published⟩,⟨j,?_,he⟩⟩
    · simpa using h.compact
    · simpa using h.swap
    · simpa using hj
  have hu : Unmarked K (((d.move .compact .log).move .retainPending .retain).move .swap
      .head).entry := fun s hs => by simp at hs
  have h3 := h2.move (.plain ⟨rfl,rfl⟩ hva hp hu)
  refine (Disk.leads_rename (J := fun t => SafeBy H inOrder t K (Only rs rec)) h.compact
    h0 h1).andThen ?_ (fun _ t hf ht => ⟨hf,ht.safe⟩) (fun t hs ht => ⟨hs,ht.safe⟩)
  refine (Disk.leads_rename (J := fun t => SafeBy H inOrder t K (Only rs rec)) (i := j)
    (by simpa using hj) h1 h2).andThen ?_ (fun _ t hf ht => ⟨hf,ht.safe⟩)
    (fun t hs ht => ⟨hs,ht.safe⟩)
  refine (Disk.leads_rename (J := fun t => SafeBy H inOrder t K (Only rs rec))
    (i := marker) (by simpa using h.swap) h2 h3).andThen ?_ (fun _ t hf ht => ⟨hf,ht.safe⟩)
    (fun t hs ht => ⟨hs,ht.safe⟩)
  have hse : SafeBy H inOrder (((d.move .compact .log).move .retainPending .retain).move
      .swap .head).settle K (Only rs rec) := by
    refine ⟨h3.honors.same (Nat.le_refl _) fun _ _ => rfl,h3.untorn,fun v hv => ?_⟩
    obtain rfl := hv.settle
    exact .plain ⟨rfl,rfl⟩ hva hp hu
  refine Disk.meets_syncDir ⟨K,⟨⟨hse.honors,hse.untorn,h.log,fun v hv => ?_⟩,h.exact⟩⟩
    (fun hf => ⟨⟨hf,h3.safe⟩,hf,hse.safe⟩) (fun hs => ⟨⟨hs,h3.safe⟩,hs,hse.safe⟩)
  obtain rfl := hv.settle
  exact ⟨by simpa using h.compact,hp,hu⟩

end Renames

section Stage

variable {new : Nat}

lemma HoldsBy.safe {P : Finding}
    (h : HoldsBy H inOrder d K file old retention) (hP : P old retention)
    (hv : Valid H old retention) : Safe H inOrder d P :=
  (h.toPublishedBy.calm hP hv).safeBy.safe

lemma meets_writeMarker {α : Type} (a : α) (h : Prepared H d K file old retention new rs rec)
    (ho : Valid H old retention) (hv : Valid H rs (some rec)) :
    Meets T (do
      writeNewSynced .swap (headOf H rs)
      Io.failingAs .io Disk.syncDir
      return a) d
      ⟨fun x d' => x = a ∧ ∃ K marker, Complete H d' K new rs rec marker,
        fun _ d' => Holds H inOrder d' file old retention ∨ CanFail T ∧ ¬NoMarker d',
        fun d' => CanStop T ∧ Safe H inOrder d' (OldOrNew old retention rs rec)⟩ := by
  have hsa := h.holds.safe (P := OldOrNew old retention rs rec) (.inl ⟨rfl,rfl⟩) ho
  cases hsw : d.entry .swap with
  | some i =>
    refine Meets.bind ((meets_writeOver hsw).mono (fun _ _ => False.elim) ?_ ?_)
      (R := fun _ _ => False) fun _ _ => False.elim
    · rintro _ _ rfl
      exact .inl ⟨K,h.holds⟩
    · rintro _ ⟨hs,rfl⟩
      exact ⟨hs,hsa⟩
  | none =>
    -- Every state until the end is the old log with a marker that has a first part of its bytes.
    let J (t : LogDisk) : Prop := (Holds H inOrder t file old retention ∨ ¬NoMarker t) ∧
      Safe H inOrder t (OldOrNew old retention rs rec)
    have hJ : ∀ f : Inode → Inode, (f Inode.fresh).content <+: headOf H rs →
        J ((d.link .swap).alter d.inodes.length f) := by
      intro f hf
      refine ⟨?_,(h.marking ho hv hf).elim fun _ hs => hs.safe⟩
      by_cases hl : (f Inode.fresh).content.length < headBytesLength
      · exact .inl (h.unmarked hl)
      · refine .inr fun hma => hl ?_
        have hsh := hma d.inodes.length (by simp)
        rwa [Disk.inode_alter _ _ (by simp),Disk.inode_link_new] at hsh
    have hli : J (d.link .swap) := by
      have hi := hJ id nil_prefix
      rwa [Disk.alter_id] at hi
    have hw : ∀ k, J ((d.link .swap).alter d.inodes.length (·.write 0 ((headOf H rs).take k))) := by
      intro k
      refine hJ _ ?_
      have hco : (Inode.fresh.write 0 ((headOf H rs).take k)).content =
          (headOf H rs).take k := overwrite_end [] _
      rw [hco]
      exact take_prefix _ _
    have ha : J ((d.link .swap).alter d.inodes.length (·.write 0 (headOf H rs))) := by
      have hk := hw (headOf H rs).length
      rwa [take_length] at hk
    have hsy : J (d.addFile .swap (headOf H rs)) := by
      rw [Disk.addFile,Disk.alter_alter]
      refine hJ _ ?_
      have hco : (Inode.fresh.write 0 (headOf H rs)).sync.content =
          headOf H rs := overwrite_end [] _
      exact ⟨[],by rw [append_nil,hco]⟩
    have he : ∀ t, CanFail T → J t → Holds H inOrder t file old retention ∨ CanFail T ∧ ¬NoMarker t :=
      fun t hf ht => ht.1.imp_right fun hma => ⟨hf,hma⟩
    have hc := h.complete
    have hwr : Leads T J (writeNewSynced .swap (headOf H rs)) d ()
        (d.addFile .swap (headOf H rs)) := by
      refine ((Disk.leads_create hsw ⟨.inl ⟨K,h.holds⟩,hsa⟩ hli).failingAs _).bind ?_
      refine ((Disk.leads_writeAt hw).failingAs _).bind ?_
      exact (Disk.leads_syncAll ha hsy).failingAs _
    refine hwr.andThen ?_ (fun _ t => he t) (fun t hs ht => ⟨hs,ht.2⟩)
    have hm : ¬NoMarker (d.addFile .swap (headOf H rs)).settle := by
      intro hma
      have hsh := hma d.inodes.length (by simp)
      rw [Disk.inode_settle,Disk.inode_addFile,headOf,length_headBytes] at hsh
      exact Nat.lt_irrefl _ hsh
    have hse : J (d.addFile .swap (headOf H rs)).settle :=
      ⟨.inr hm,(hc.safeBy hv).safe.mono fun _ _ => .inr⟩
    exact ((Disk.leads_syncDir hsy hse).failingAs _).andThen
      (Meets.pure ⟨rfl,_,_,hc⟩) (fun _ t => he t) (fun t hs ht => ⟨hs,ht.2⟩)

lemma Building.prepared {d0 : LogDisk} {r : Replacement}
    (h : Building H true d0 d r rs) (he : d.inode r.file = ⟨image H rs,none⟩)
    (hh : HoldsBy H inOrder d0 K file old retention) :
    ∃ K', Prepared H (d.addFile .retainPending (rec.toBytes H)).settle K' file old
      retention r.file rs rec := by
  have hf : r.file < d.inodes.length := h.own.1
  have ha : Disk.Within inOrder.ordered Scratch d (d.addFile .retainPending (rec.toBytes H)) :=
    Disk.within_addFile inOrder.ordered (.inr (.inr rfl))
  have hw := ha.settle
  have hfro : (d.inode r.file).Honors (.front (image H rs)) := by
    rw [he]
    exact Inode.keeps_self _
  have h1 := (hh.within h.within).promise (hh.honors.absent _ h.fresh) hf hfro (by simp)
  have hfr : update K r.file (.front (image H rs)) d.inodes.length = .free :=
    h1.honors.absent _ (Nat.le_refl _)
  have hno : ((d.addFile .retainPending (rec.toBytes H)).settle.inode
      d.inodes.length).Honors (.exact (rec.toBytes H)) := Disk.inode_addFile
  have h2 := (h1.within hw).promise hfr (by simp) hno (by simp)
  have hn : r.file ≠ d.inodes.length := Nat.ne_of_lt hf
  refine ⟨_,h2,fun v hv => hv.settle,?_,?_,?_,⟨d.inodes.length,by simp,update_self _ _ _⟩⟩
  · simpa using h.entry
  · rw [update_of_ne hn,update_self]
  · rw [hw.inode _ hf,he]

lemma nextRecord_compactions (log : AppendOnlyStorage) (fl : UInt64) (cp : Checkpoint) :
    (log.nextRecord fl cp).compactions ≠ 0 := by
  simp only [nextRecord]
  intro hz
  split at hz
  · next hr =>
    have := congrArg UInt64.toNat hz
    rw [toNat_succ hr] at this
    cases this
  · next hr =>
    rw [hz] at hr
    exact hr (by decide)

/-- A compaction may begin: the log, and the checkpoint at which it is split. -/
structure Compacting (H : Hasher) (log : AppendOnlyStorage) (old : List Record)
    (head cp : Checkpoint) (state : InMemoryState) (batches : List CommitBatch) : Prop where
  split : Split H old log cp state batches
  above : heightsAbove cp head = batches.map (·.block.header.height.toNat)
  valid : Valid H old log.retention
  positive : cp.height ≠ 0
  block : cp.block ≠ Hash256.zero

variable {log : AppendOnlyStorage} {head cp : Checkpoint} {st : InMemoryState}
  {bts : List CommitBatch}

lemma Compacting.sound (h : Compacting H log old head cp st bts) :
    (Record.anchor cp st).Sound H := by
  obtain ⟨fr,pre,rfl,hf,hc,rfl⟩ := h.split.parts
  refine ⟨h.block,(follows_of_rebuild hf).root cp hc fun r hr => ?_⟩
  exact (h.valid.written r (mem_append_left _ hr)).1

lemma Compacting.replacement (h : Compacting H log old head cp st bts) {bs : Bytes}
    (hb : encodeAnchor H cp st = .ok bs)
    (hf : (image H (replacing cp st bts)).length < 2 ^ 64) :
    Valid H (replacing cp st bts) (some (log.nextRecord cp.height cp)) := by
  obtain ⟨fr,pre,ho,-⟩ := h.split.parts
  obtain ⟨short,hsh,hs⟩ := h.split.short
  refine ⟨fun r hr => ?_,hf,?_,short,hsh,?_⟩
  · rcases mem_cons.mp hr with rfl | hr
    · exact ⟨h.sound,bs,hb⟩
    · exact h.valid.written r (ho ▸ mem_append_right _ hr)
  · intro rec hre
    cases hre
    simp only [not_or]
    exact ⟨h.positive,nextRecord_compactions _ _ _,h.block⟩
  · have hl : cp.height ≤ (log.nextRecord cp.height cp).floor := UInt64.le_refl _
    have hsa : (log.nextRecord cp.height cp).floor = cp.height →
        (log.nextRecord cp.height cp).block = cp.block ∧
          (log.nextRecord cp.height cp).stateRoot = cp.stateRoot := fun _ => ⟨rfl,rfl⟩
    simp only [checkRetention,hs.anchor,ensure_of hl,ensure_of hsa]
    rfl

lemma meets_stage {d0 : LogDisk} {budget : Nat}
    (hho : HoldsBy H inOrder d0 K log.file old log.retention)
    (hw : Disk.Within true Scratch d0 d)
    (h : Compacting H log old head cp st bts) :
    Meets T (stage H log head cp st (log.nextRecord cp.height cp) budget) d
      ⟨fun r d' => (∃ K marker, Complete H d' K r.file (replacing cp st bts)
            (log.nextRecord cp.height cp) marker) ∧
          Valid H (replacing cp st bts) (some (log.nextRecord cp.height cp)) ∧
          ∃ short, rebuild H (replacing cp st bts) = .ok short ∧
            r.endOffset = short.endOffset ∧ r.tip = short.tip ∧ r.index = short.index,
        fun _ d' => Holds H inOrder d' log.file old log.retention ∨ CanFail T ∧ ¬NoMarker d',
        fun d' => CanStop T ∧ Safe H inOrder d' (OldOrNew old log.retention
          (replacing cp st bts) (log.nextRecord cp.height cp))⟩ := by
  have hh : ∀ t, Disk.Within true Scratch d0 t →
      Holds H inOrder t log.file old log.retention ∨ CanFail T ∧ ¬NoMarker t :=
    fun t ht => .inl ⟨K,hho.within ht⟩
  have hsa : ∀ t, Disk.Within true Scratch d0 t → Safe H inOrder t (OldOrNew old log.retention
      (replacing cp st bts) (log.nextRecord cp.height cp)) :=
    fun t ht => (hho.within ht).safe (.inl ⟨rfl,rfl⟩) h.valid
  have hco : image H old <+: (d0.inode log.file).content := by
    exact ⟨[],by rw [append_nil,hho.exact]⟩
  refine Meets.bind ((meets_writeReplacement hw h.split h.above h.valid.written hho.entry.1
    hco).mono (fun _ _ => id) (fun _ => hh) (fun t ht => ⟨ht.1,hsa t ht.2⟩)) ?_
  rintro r d1 ⟨hb,hex,bs,hby⟩
  have hv := h.replacement hby hb.fits
  obtain ⟨he,hti⟩ := hb.position
  cases hp : d1.entry .retainPending with
  | some i =>
    refine Meets.bind (R := fun _ _ => False) ((meets_writeOver hp).mono (fun _ _ => id) ?_ ?_)
      fun _ _ => False.elim
    · rintro _ _ rfl
      exact hh _ hb.within
    · rintro _ ⟨hs,rfl⟩
      exact ⟨hs,hsa _ hb.within⟩
  | none =>
    have hsc : ∀ t, Disk.Within true (· = LogFile.retainPending) d1 t → Disk.Within true Scratch d0 t :=
      fun t ht => hb.within.trans (ht.mono fun _ hn => .inr (.inr hn))
    have ha : Disk.Within true Scratch d0
        (d1.addFile .retainPending ((log.nextRecord cp.height cp).toBytes H)) :=
      hsc _ (Disk.within_addFile true rfl)
    have hwr := leads_writeNewSynced (T := T)
      (J := fun t => Disk.Within true Scratch d0 t) ((log.nextRecord cp.height cp).toBytes H) true
      hp hsc
    refine hwr.andThen ?_ (fun _ t _ => hh t) (fun t hs ht => ⟨hs,hsa t ht⟩)
    refine ((Disk.leads_syncDir (J := fun t => Disk.Within true Scratch d0 t) ha
      ha.settle).failingAs _).andThen ?_ (fun _ t _ => hh t) (fun t hs ht => ⟨hs,hsa t ht⟩)
    obtain ⟨K',hpr⟩ : ∃ K', Prepared H (d1.addFile .retainPending
        ((log.nextRecord cp.height cp).toBytes H)).settle K' log.file old log.retention r.file
        (replacing cp st bts) (log.nextRecord cp.height cp) := hb.prepared hex hho
    have hm := meets_writeMarker (T := T) r hpr h.valid hv
    rw [headOf,← he,← hti] at hm
    refine hm.mono ?_ (fun _ _ => id) (fun _ => id)
    rintro _ t ⟨rfl,hc⟩
    exact ⟨hc,hv,hb.counted⟩

end Stage

section Whole

variable {log : AppendOnlyStorage} {fl : UInt64}

/-- What a log of the records `old` becomes when it is replaced from `floor` on. -/
def Shrunk (H : Hasher) (log : AppendOnlyStorage) (old : List Record) (floor : UInt64)
    (found : List Record) (found' : Option RetentionRecord) : Prop :=
  ∃ head cp state batches, Compacting H log old head cp state batches ∧ cp.height = floor ∧
    log.history.read H floor log.checkpoint log.state = .ok (some (cp, state)) ∧
    found = replacing cp state batches ∧ found' = some (log.nextRecord floor cp)

def Shrinking (H : Hasher) (log : AppendOnlyStorage) (old : List Record)
    (floor : UInt64) (found : List Record) (found' : Option RetentionRecord) : Prop :=
  (found = old ∧ found' = log.retention) ∨ Shrunk H log old floor found found'

/-- How a compaction ends. After a failure the log may go on although there is a marker by which
the next open replaces its file. -/
def compacting (H : Hasher) (T : Turn → Prop) (log : AppendOnlyStorage)
    (old : List Record) (floor : UInt64) : Post LogState StorageError Unit where
  ok _ s := (s.2 = log ∧ Live H inOrder s.1 log old ∧
      ∃ a, log.anchor = some a ∧ floor ≤ a.height) ∨
    ∃ records, Shrunk H log old floor records s.2.retention ∧
      Live H inOrder s.1 s.2 records ∧ s.2.policy = log.policy
  error _ s := (s.2 = log ∧ Live H inOrder s.1 log old) ∨
    (CanFail T ∧ s.2 = log ∧ ¬NoMarker s.1) ∨
    (CanFail T ∧ s.2.poisoned = true ∧
      Safe H inOrder s.1 (Shrinking H log old floor))
  stopped s := CanStop T ∧ (CanFail T ∨ Safe H inOrder s.1 (Shrinking H log old floor))

variable {head cp : Checkpoint} {st : InMemoryState} {bts : List CommitBatch} {r : Replacement}

variable {short : AppendOnlyStorage} {d' : LogDisk} {budget : Nat}

lemma Compacting.core (h : Compacting H log old head cp st bts)
    (hsh : rebuild H (replacing cp st bts) = .ok short)
    (he : r.endOffset = short.endOffset) (ht : r.tip = short.tip) (hi : r.index = short.index) :
    short = AppendOnlyStorage.core { log with
      file := r.file
      endOffset := r.endOffset
      tip := r.tip
      index := r.index
      anchor := some cp
      retention := some (log.nextRecord cp.height cp)
      history := log.history.truncateBelow cp.height
      transactions := log.transactions.prune (cp.height + 1) } := by
  obtain ⟨short',hs',hs⟩ := h.split.short
  rw [hsh] at hs'
  cases hs'
  have hc : log.poisoned = false := (follows_of_rebuild h.split.whole).poisoned
  have hc' : short.poisoned = false := (follows_of_rebuild hsh).poisoned
  calc short = short.core := (core_of_rebuild hsh).symm
    _ = _ := by
      simp only [AppendOnlyStorage.core,hs.checkpoint,hs.state,hs.anchor,hs.transactions,hs.history,
        he,ht,hi,hc,hc']

lemma meets_publishReplacement {K : Pledges} {marker : Nat}
    (h : Compacting H log old head cp st bts)
    (hr : log.history.read H cp.height log.checkpoint log.state = .ok (some (cp,st)))
    (hc : Complete H d K r.file (replacing cp st bts) (log.nextRecord cp.height cp) marker)
    (hv : Valid H (replacing cp st bts) (some (log.nextRecord cp.height cp))) (hsh : rebuild H (replacing cp st bts) = .ok short)
    (he : r.endOffset = short.endOffset) (hti : r.tip = short.tip) (hi : r.index = short.index) :
    Meets T (publishReplacement r (log.nextRecord cp.height cp) cp cp.height) (d,log)
      (compacting H T log old cp.height) := by
  have hshr : Shrunk H log old cp.height (replacing cp st bts)
      (some (log.nextRecord cp.height cp)) := ⟨head,cp,st,bts,h,rfl,hr,rfl,rfl⟩
  have hs : ∀ {t}, Safe H inOrder t (Only (replacing cp st bts)
      (log.nextRecord cp.height cp)) → Safe H inOrder t (Shrinking H log old cp.height) := by
    intro t ht
    refine ht.mono ?_
    rintro _ _ ⟨rfl,rfl⟩
    exact .inr hshr
  apply meets_update
  refine Meets.attemptThen (fun _ s => ∃ t, s = (t,{ log with file := r.file }) ∧
      Holds H inOrder t r.file (replacing cp st bts) (some (log.nextRecord cp.height cp)))
    (fun _ s => ∃ t, s = (t,{ log with file := r.file }) ∧ CanFail T ∧
      Safe H inOrder t (Shrinking H log old cp.height)) ?_ ?_ ?_
  · apply Meets.outer
    exact (meets_swapFiles hc hv).mono (fun _ t ht => ⟨t,rfl,ht⟩)
      (fun _ t ht => ⟨t,rfl,ht.1,hs ht.2⟩) (fun t ht => ⟨ht.1,.inr (hs ht.2)⟩)
  · rintro _ _ ⟨t,rfl,ht⟩
    refine Meets.modify (.inr ⟨_,hshr,⟨?_,hv,ht⟩,rfl⟩)
    rw [hsh,h.core hsh he hti hi]
  · rintro _ _ ⟨t,rfl,ht⟩
    exact meets_update (Meets.fail (.inr (.inr ⟨ht.1,rfl,ht.2⟩)))

lemma meets_present {n : LogFile} : Meets T (present n) d
    ⟨fun _ d' => d = d',fun _ _ => False,fun d' => CanStop T ∧ d = d'⟩ := by
  refine Meets.bind (R := fun _ t => d = t) ?_ ?_
  · apply Meets.attempt
    exact Disk.meets_metadata (fun _ _ => rfl) (fun _ => rfl) (fun _ => rfl) (fun hs => ⟨hs,rfl⟩)
  · rintro (_ | _) _ rfl <;> exact Meets.pure rfl

lemma not_noMarker_within (h : Disk.Within true Scratch d d') (hd : ¬NoMarker d) :
    ¬NoMarker d' := by
  intro hm
  refine hd fun s hs => ?_
  have hsh := hm s ((h.entry _ (not_scratch (.inr (.inr (.inr rfl))))).trans hs)
  rwa [h.inode s (d.entry_lt _ _ hs)] at hsh

lemma Live.safe {P : Finding}
    (h : Live H inOrder d log old) (hP : P old log.retention) : Safe H inOrder d P := by
  obtain ⟨K,hh⟩ := h.holds
  exact hh.safe hP h.valid

lemma Live.within (h : Live H inOrder d log old)
    (hw : Disk.Within true Scratch d d') : Live H inOrder d' log old :=
  ⟨h.rebuilt,h.valid,h.holds.within hw⟩

lemma meets_abandon {e : StorageError} {α : Type} (hv : Valid H old log.retention)
    (hl : rebuild H old = .ok log.core)
    (h : Holds H inOrder d log.file old log.retention ∨ CanFail T ∧ ¬NoMarker d) :
    Meets T (do
      Io.outer (removeAbsentOk .compact)
      Io.outer (removeAbsentOk .retainPending)
      Io.fail e : LogIo α) (d,log)
      ⟨fun _ _ => False,(compacting H T log old fl).error,
        (compacting H T log old fl).stopped⟩ := by
  have hk : ∀ {t}, Disk.Within true Scratch d t →
      Holds H inOrder t log.file old log.retention ∨ CanFail T ∧ ¬NoMarker t := fun hw =>
    h.imp (fun hh => hh.within hw) fun hm => ⟨hm.1,not_noMarker_within hw hm.2⟩
  have he : ∀ {t} (e : StorageError), Disk.Within true Scratch d t →
      (compacting H T log old fl).error e (t,log) := by
    intro t e hw
    rcases hk hw with hh | hm
    · exact .inl ⟨rfl,hl,hv,hh⟩
    · exact .inr (.inl ⟨hm.1,rfl,hm.2⟩)
  have hst : ∀ {t}, CanStop T → Disk.Within true Scratch d t →
      (compacting H T log old fl).stopped (t,log) := by
    intro t hs hw
    rcases hk hw with ⟨K,hh⟩ | hm
    · exact ⟨hs,.inr (hh.safe (.inl ⟨rfl,rfl⟩) hv)⟩
    · exact ⟨hs,.inl hm.1⟩
  refine Meets.outer_bind ((meets_clear (n := .compact) (.inr (.inl rfl)) true).mono (fun _ _ => And.right)
    (fun e _ ht => he e ht.2) (fun _ ht => hst ht.1 ht.2)) ?_
  intro _ d1 hw1
  refine Meets.outer_bind ((meets_clear (n := .retainPending) (.inr (.inr rfl)) true).mono
    (fun _ _ => And.right) (fun e _ ht => he e (hw1.trans ht.2))
    (fun _ ht => hst ht.1 (hw1.trans ht.2))) ?_
  intro _ d2 hw2
  exact Meets.fail (he e (hw1.trans hw2))

lemma meets_compactTo (hl : Live H inOrder d log old) (h : Compacting H log old head cp st bts)
    (hr : log.history.read H cp.height log.checkpoint log.state = .ok (some (cp,st))) :
    Meets T (compactTo H log head cp st cp.height budget) (d,log)
      (compacting H T log old cp.height) := by
  have hs : ∀ {t}, Disk.Within true Scratch d t →
      Safe H inOrder t (Shrinking H log old cp.height) :=
    fun hw => (hl.within hw).safe (.inl ⟨rfl,rfl⟩)
  have hsa := Disk.Within.refl true Scratch d
  refine Meets.outer_bind (meets_present.mono (fun _ _ => id) (fun _ _ => False.elim)
    (fun t ht => ⟨ht.1,.inr (hs (ht.2 ▸ hsa))⟩)) ?_
  rintro marked _ rfl
  refine meets_give (fun _ _ => ?_) (fun e _ => .inl ⟨rfl,hl⟩)
  refine Meets.outer_bind ((meets_clear (n := .compact) (.inr (.inl rfl)) true).mono (fun _ _ => And.right)
    (fun e _ ht => .inl ⟨rfl,hl.within ht.2⟩) (fun _ ht => ⟨ht.1,.inr (hs ht.2)⟩)) ?_
  intro _ d1 hw1
  refine Meets.outer_bind ((meets_clear (n := .retainPending) (.inr (.inr rfl)) true).mono
    (fun _ _ => And.right) (fun e _ ht => .inl ⟨rfl,hl.within (hw1.trans ht.2)⟩)
    (fun _ ht => ⟨ht.1,.inr (hs (hw1.trans ht.2))⟩)) ?_
  intro _ d2 hw2
  obtain ⟨K,hh⟩ := hl.holds
  refine Meets.attemptThen
    (fun r s => ∃ t, s = (t,log) ∧ (∃ K marker, Complete H t K r.file (replacing cp st bts)
        (log.nextRecord cp.height cp) marker) ∧
      Valid H (replacing cp st bts) (some (log.nextRecord cp.height cp)) ∧
      ∃ short, rebuild H (replacing cp st bts) = .ok short ∧
        r.endOffset = short.endOffset ∧ r.tip = short.tip ∧ r.index = short.index)
    (fun _ s => ∃ t, s = (t,log) ∧
      (Holds H inOrder t log.file old log.retention ∨ CanFail T ∧ ¬NoMarker t)) ?_ ?_ ?_
  · apply Meets.outer
    refine (meets_stage hh (hw1.trans hw2) h).mono (fun _ t ht => ⟨t,rfl,ht⟩)
      (fun _ t ht => ⟨t,rfl,ht⟩) (fun t ht => ⟨ht.1,.inr (ht.2.mono ?_)⟩)
    rintro _ _ (⟨rfl,rfl⟩ | ⟨rfl,rfl⟩)
    · exact .inl ⟨rfl,rfl⟩
    · exact .inr ⟨head,cp,st,bts,h,rfl,hr,rfl,rfl⟩
  · rintro r _ ⟨t,rfl,⟨K',marker,hc⟩,hv,short,hsh,he,hti,hi⟩
    exact meets_publishReplacement h hr hc hv hsh he hti hi
  · rintro _ _ ⟨t,rfl,ht⟩
    exact (meets_abandon hl.valid hl.rebuilt ht).mono (fun _ _ => False.elim) (fun _ _ => id)
      (fun _ => id)

lemma meets_compact (hl : Live H inOrder d log old)
    (hbl : ∀ cp st, log.history.read H fl log.checkpoint log.state =
      .ok (some (cp,st)) → cp.block ≠ Hash256.zero) :
    Meets T (compact H fl budget) (d,log) (compacting H T log old fl) := by
  apply meets_ready hl.clean
  apply meets_self
  refine meets_give (fun head hh => ?_) (fun e _ => .inl ⟨rfl,hl⟩)
  refine meets_give (fun anchor han => ?_) (fun e _ => .inl ⟨rfl,hl⟩)
  refine meets_give (fun _ hf => ?_) (fun e _ => .inl ⟨rfl,hl⟩)
  rw [okOr_eq_ok] at hh han
  rw [ensure_eq_ok] at hf
  split
  · next hlo => exact Meets.pure (.inl ⟨rfl,hl,anchor,han,hlo⟩)
  · next hlo =>
    refine meets_give (fun _ hre => ?_) (fun e _ => .inl ⟨rfl,hl⟩)
    refine meets_give (fun fd hr => ?_) (fun e _ => .inl ⟨rfl,hl⟩)
    refine meets_give (fun found' hfo => ?_) (fun e _ => .inl ⟨rfl,hl⟩)
    rw [okOr_eq_ok] at hfo
    rw [ensure_eq_ok] at hre
    obtain ⟨cp,st⟩ := found'
    rw [hfo] at hr
    have hb : fl < head.height := by
      refine UInt64.lt_of_le_of_ne hf fun heq => ?_
      rw [heq,UInt64.sub_self] at hre
      exact absurd hre (by decide)
    have hh' : log.checkpoint = some head := hh
    obtain ⟨rfl,bts,hs,ha⟩ := split_of_read hl.rebuilt hh' hb hr
    refine meets_compactTo hl ⟨hs,ha,hl.valid,?_,hbl cp st hr⟩ hr
    intro hz
    exact hlo (hz ▸ UInt64.zero_le)

end Whole
end Astrolune.Storage
